import Harmony.Lib.Run
import Mathlib.Logic.Function.Basic

/-!
# Calls that interleave on a shared memory

A system is a memory and any number of calls, each at a point of its code. `code c m p a` is what
the call `c` does at the point `p` when it takes the action `a`: the new memory and its next point,
or nothing if that is not a step of it. Each such step is atomic, and the calls' steps interleave
freely.

A thread is a sequence of calls, and a call made by a function that another call runs is a call as
well. Both only say which of the interleavings can happen, so what is shown here for all
interleavings of the calls holds for any number of threads.

* `Calls.Step.own` and `Calls.Step.other`: a step is a step of one call and leaves the other calls
  where they are.
* `OneHolder`: a flag in the memory that is up exactly while one call is in a part of its code.
  `OneHolder.step` is the rule for one step, `OneHolder.run` for a run.
-/

namespace Harmony.Lib

/-- A strong compare-exchange: what the cell then holds, and what was found there. -/
def compareExchange {α : Type} [DecidableEq α] (cell current new : α) : α × Except α α :=
  if cell = current then (new, .ok cell) else (cell, .error cell)

@[simp] theorem compareExchange_self {α : Type} [DecidableEq α] (current new : α) :
    compareExchange current current new = (new, .ok current) := if_pos rfl

@[simp] theorem compareExchange_of_ne {α : Type} [DecidableEq α] {cell current : α} (new : α)
    (h : cell ≠ current) : compareExchange cell current new = (cell, .error cell) := if_neg h

/-- The memory, and the point each call is at. -/
structure Calls (C M P : Type) where
  mem : M
  pc : C → P

/-- What a call does at a point of its code. -/
abbrev Code (C M P A : Type) := C → M → P → A → Option (M × P)

variable {C M P A : Type} [DecidableEq C] {code : Code C M P A} {s t : Calls C M P} {c d : C}
  {a : A}

/-- The system after one step of one call. -/
def Calls.next (code : Code C M P A) (s : Calls C M P) (l : C × A) : Option (Calls C M P) :=
  (code l.1 s.mem (s.pc l.1) l.2).map fun r => ⟨r.1, Function.update s.pc l.1 r.2⟩

/-- One step of one call. -/
def Calls.Step (code : Code C M P A) (s : Calls C M P) (l : C × A) (t : Calls C M P) : Prop :=
  s.next code l = some t

/-- The system after the steps of a schedule. -/
def Calls.exec (code : Code C M P A) (s : Calls C M P) (ls : List (C × A)) : Option (Calls C M P) :=
  ls.foldlM (Calls.next code) s

/-- A schedule that can be followed is a run. -/
theorem Calls.run_of_exec {ls : List (C × A)} (h : s.exec code ls = some t) :
    Run (Calls.Step code) s ls t := by
  induction ls generalizing s with
  | nil =>
    obtain rfl := Option.some.inj h
    exact .nil s
  | cons l ls ih =>
    unfold exec at h
    rw [List.foldlM_cons] at h
    obtain ⟨u, hu, hrest⟩ := Option.bind_eq_some_iff.mp h
    exact .cons hu (ih hrest)

/-- The call that takes the step does what its code says. -/
theorem Calls.Step.own (h : Calls.Step code s (c, a) t) :
    code c s.mem (s.pc c) a = some (t.mem, t.pc c) := by
  obtain ⟨r, hr, rfl⟩ := Option.map_eq_some_iff.mp h
  simpa using hr

/-- The other calls stay where they are. -/
theorem Calls.Step.other (h : Calls.Step code s (c, a) t) (hd : d ≠ c) : t.pc d = s.pc d := by
  obtain ⟨r, _, rfl⟩ := Option.map_eq_some_iff.mp h
  exact Function.update_of_ne hd _ _

/-- What holds of the other calls where they are, and of the call that takes the step where it
gets to, holds of all. -/
theorem Calls.Step.forall_pc (I : C → P → Prop) (h : Calls.Step code s (c, a) t)
    (hown : I c (t.pc c)) (hother : ∀ d, d ≠ c → I d (s.pc d)) : ∀ d, I d (t.pc d) := by
  intro d
  by_cases hd : d = c
  · exact hd ▸ hown
  · exact (h.other hd).symm ▸ hother d hd

/-- A step that changes neither the memory nor the point of its call changes nothing. -/
theorem Calls.Step.eq_self (h : Calls.Step code s (c, a) t) (hmem : t.mem = s.mem)
    (hpc : t.pc c = s.pc c) : t = s := by
  have hpcs : t.pc = s.pc := by
    funext d
    exact h.forall_pc (fun d p => p = s.pc d) hpc (fun _ _ => rfl) d
  cases s
  cases t
  congr

/-! ### One holder -/

/-- `taken` says of the memory that somebody is in the part `holds` of the code, and one call at
most is there. -/
def OneHolder (taken : M → Prop) (holds : P → Prop) (s : Calls C M P) : Prop :=
  (taken s.mem ↔ ∃ c, holds (s.pc c)) ∧ ∀ c d, holds (s.pc c) → holds (s.pc d) → c = d

/-- What one step may do: take what was free, give back what the call held, or neither. `taken` and
`held` are before the step, `taken'` and `held'` after it. -/
inductive Passes (taken taken' held held' : Prop) : Prop
  | take (hfree : ¬ taken) (htaken : taken') (hin : held')
  | give (hin : held) (hfree : ¬ taken') (hout : ¬ held')
  | keep (htaken : taken' ↔ taken) (hheld : held' ↔ held)

variable {taken : M → Prop} {holds : P → Prop}

omit [DecidableEq C] in
theorem OneHolder.taken_of_holds (h : OneHolder taken holds s) (hc : holds (s.pc c)) :
    taken s.mem := h.1.mpr ⟨c, hc⟩

omit [DecidableEq C] in
/-- Nobody holds what is free. -/
theorem OneHolder.not_holds (h : OneHolder taken holds s) (hfree : ¬ taken s.mem) :
    ¬ holds (s.pc c) := fun hc => hfree (h.taken_of_holds hc)

/-- **The rule for one step.** -/
theorem OneHolder.step (h : OneHolder taken holds s) (hs : Calls.Step code s (c, a) t)
    (hp : Passes (taken s.mem) (taken t.mem) (holds (s.pc c)) (holds (t.pc c))) :
    OneHolder taken holds t := by
  cases hp with
  | take hfree htaken hin =>
    -- nobody was in, so this call is the only one now
    have honly : ∀ d, holds (t.pc d) → d = c :=
      hs.forall_pc (fun d p => holds p → d = c) (fun _ => rfl)
        fun d _ hd => absurd hd (h.not_holds hfree)
    exact ⟨iff_of_true htaken ⟨c, hin⟩, fun d e hd he => (honly d hd).trans (honly e he).symm⟩
  | give hin hfree hout =>
    -- this call was the only one, so nobody is in now
    have hnone : ∀ d, ¬ holds (t.pc d) :=
      hs.forall_pc (fun _ p => ¬ holds p) hout fun d hd hhd => hd (h.2 d c hhd hin)
    exact ⟨iff_of_false hfree fun hex => hex.elim hnone, fun d e hd _ => absurd hd (hnone d)⟩
  | keep hmem hpc =>
    have hsame : ∀ d, holds (t.pc d) ↔ holds (s.pc d) :=
      hs.forall_pc (fun d p => holds p ↔ holds (s.pc d)) hpc fun _ _ => Iff.rfl
    simp only [OneHolder, hsame, hmem]
    exact h

/-- **The rule for a run**, for a code that passes `taken` on properly wherever it is at a point
that agrees with it. -/
theorem OneHolder.run {ls : List (C × A)}
    (hcode : ∀ c m p a m' p', code c m p a = some (m', p') → (holds p → taken m) →
      Passes (taken m) (taken m') (holds p) (holds p'))
    (r : Run (Calls.Step code) s ls t) (h : OneHolder taken holds s) : OneHolder taken holds t :=
  r.invariant _ (fun _ l _ hI hs => hI.step hs (hcode l.1 _ _ l.2 _ _ hs.own hI.taken_of_holds)) h

end Harmony.Lib
