import Harmony.Retype.Entry

/-!
# How exact the packed counter is

Any sequence (or interleaving: each operation is one atomic step) of `retype`, `increment`,
`get_as_and_increment` and `decrement` on one entry, against the tally of the successful ones.

`increment` adds one to the raw word and is exact up to `MAX_REF_COUNT`. The paths that write the
counter through `value_for` are not: `value_for` reduces it modulo `MAX_REF_COUNT`, so a
`get_as_and_increment` at `MAX_REF_COUNT - 1`, a `retype` to `MAX_REF_COUNT` and
`kernel(MAX_REF_COUNT)` all leave the counter at 0.

* `tally_step_iff`: a step from an exact counter leaves it exact iff it does not write
  `MAX_REF_COUNT` through `value_for` (`EntryOp.Keeps`).
* `counterLaw_iff`: so over a whole sequence.
-/

namespace Harmony

open Lib

/-- One atomic step on a `RetypeEntry`. -/
inductive EntryOp where
  | retype (fromState toState : State) (fromCounter toCounter : Nat)
  | increment
  | getAsAndIncrement (wants : State)
  | decrement

/-- The `Result` is `Ok`. -/
def isOk {ε α : Type} : Except ε α → Bool
  | .ok _ => true
  | .error _ => false

theorem isOk_map {ε α β : Type} (g : α → β) (r : Except ε α) : isOk (r.map g) = isOk r := by
  cases r <;> rfl

theorem isOk_eq_true {ε α : Type} {r : Except ε α} (h : isOk r = true) : ∃ a, r = .ok a := by
  cases r with
  | ok a => exact ⟨a, rfl⟩
  | error _ => exact absurd h (by simp [isOk])

theorem isOk_eq_false {ε α : Type} {r : Except ε α} (h : isOk r = false) :
    ∃ err, r = .error err := by
  cases r with
  | ok _ => exact absurd h (by simp [isOk])
  | error err => exact ⟨err, rfl⟩

/-- Run the step: whether it succeeded, and the entry after it. -/
def EntryOp.apply (e : RetypeEntry) : EntryOp → Except Panic (Bool × RetypeEntry)
  | .retype fs ts fc tc => (e.retype fs ts fc tc).map fun r => (isOk r.1, r.2)
  | .increment => .ok (isOk e.increment.1, e.increment.2)
  | .getAsAndIncrement wants =>
    .ok (isOk (e.getAsAndIncrement wants).1, (e.getAsAndIncrement wants).2)
  | .decrement => .ok (isOk e.decrement.1, e.decrement.2)

/-- The tally after the step: a successful `retype` restarts it at `to_counter`, a successful
increment of either kind adds one, a successful `decrement` takes one. -/
def EntryOp.tally (n : Int) : EntryOp → Bool → Int
  | _, false => n
  | .retype _ _ _ tc, true => tc
  | .increment, true => n + 1
  | .getAsAndIncrement _, true => n + 1
  | .decrement, true => n - 1

/-- How an entry starts: `unavailable()`, `untyped()` or `kernel(n)`. -/
inductive EntryInit where
  | unavailable
  | untyped
  | kernel (refCount : Nat) (h : refCount ≤ RetypeEntry.maxRefCount)

def EntryInit.entry : EntryInit → RetypeEntry
  | .unavailable => RetypeEntry.unavailable
  | .untyped => RetypeEntry.untyped
  | .kernel n h => RetypeEntry.kernel n h

/-- The constructor's count. -/
def EntryInit.count : EntryInit → Nat
  | .unavailable => 0
  | .untyped => 0
  | .kernel n _ => n

/-- An entry with the tally of its successful steps. -/
structure Tallied where
  entry : RetypeEntry
  expected : Int

def EntryInit.start (c : EntryInit) : Tallied := ⟨c.entry, c.count⟩

/-- One step that does not panic. -/
def TallyStep (s : Tallied) (op : EntryOp) (t : Tallied) : Prop :=
  ∃ ok, op.apply s.entry = .ok (ok, t.entry) ∧ t.expected = op.tally s.expected ok

/-- `get()` reads the tally. -/
def Tallied.Exact (s : Tallied) : Prop := (s.entry.get.2 : Int) = s.expected

/-- When the operations fail, and that a failing one leaves the word. -/
structure FailsExactly (e : RetypeEntry) : Prop where
  increment : isOk e.increment.1 = false ↔ e.get.2 = RetypeEntry.maxRefCount
  getAsAndIncrement : ∀ wants, e.get.1 = wants →
    (isOk (e.getAsAndIncrement wants).1 = false ↔ e.get.2 = RetypeEntry.maxRefCount)
  decrement : isOk e.decrement.1 = false ↔ e.get.2 = 0
  unchanged : ∀ (op : EntryOp) e', op.apply e = .ok (false, e') → e' = e

/-- The law over a sequence: at every point reached, the counter is the tally and the steps fail
exactly at the limits. -/
def CounterLaw (c : EntryInit) (ops : List EntryOp) : Prop :=
  ∀ pre post s, ops = pre ++ post → Run TallyStep c.start pre s →
    s.Exact ∧ FailsExactly s.entry

/-- The step does not write the counter `MAX_REF_COUNT` through `value_for`: it is no
`get_as_and_increment` of the right state at `MAX_REF_COUNT - 1`, and no `retype` to
`MAX_REF_COUNT` whose compare-exchange matches. -/
def EntryOp.Keeps (e : RetypeEntry) : EntryOp → Prop
  | .getAsAndIncrement wants => e.get ≠ (wants, RetypeEntry.maxRefCount - 1)
  | .retype fs _ fc tc => tc = RetypeEntry.maxRefCount → fc ≤ RetypeEntry.maxRefCount →
      e.get ≠ (fs, fc % RetypeEntry.maxRefCount)
  | .increment => True
  | .decrement => True

/-- No step of the sequence writes `MAX_REF_COUNT` through `value_for`, the constructor
included. -/
def NeverWritesMax (c : EntryInit) (ops : List EntryOp) : Prop :=
  c.count ≠ RetypeEntry.maxRefCount ∧
    ∀ pre op post s, ops = pre ++ op :: post → Run TallyStep c.start pre s → op.Keeps s.entry

open RetypeEntry

/-- What a successful step does to the decoded pair. -/
def EntryOp.Effect (e e' : RetypeEntry) : EntryOp → Prop
  | .retype fs ts fc tc => fc ≤ maxRefCount ∧ tc ≤ maxRefCount ∧ e.get = (fs, fc % 16383) ∧
      e'.get = (ts, tc % 16383)
  | .increment => e.get.2 ≠ 16383 ∧ e'.get = (e.get.1, e.get.2 + 1)
  | .getAsAndIncrement wants => e.get.1 = wants ∧ e.get.2 ≠ 16383 ∧
      e'.get = (wants, (e.get.2 + 1) % 16383)
  | .decrement => e.get.2 ≠ 0 ∧ e'.get = (e.get.1, e.get.2 - 1)

/-- **Everything a step can do**: fail and leave the entry, or succeed with its effect. -/
theorem EntryOp.apply_cases {op : EntryOp} {e e' : RetypeEntry} {ok : Bool}
    (h : op.apply e = .ok (ok, e')) :
    (ok = false ∧ e' = e) ∨ (ok = true ∧ op.Effect e e') := by
  cases op with
  | retype fs ts fc tc =>
    by_cases hr : fc ≤ maxRefCount ∧ tc ≤ maxRefCount
    · obtain ⟨hf, ht⟩ := hr
      by_cases hg : e.get = (fs, fc % 16383)
      · obtain ⟨e₁, he, hget⟩ := retype_of_eq ts fc tc hf ht hg
        simp only [EntryOp.apply, he, Except.map, isOk, Except.ok.injEq, Prod.mk.injEq] at h
        obtain ⟨rfl, rfl⟩ := h
        exact Or.inr ⟨rfl, hf, ht, hg, hget⟩
      · simp only [EntryOp.apply, retype_of_ne ts fc tc hf ht hg, Except.map, isOk, Except.ok.injEq,
          Prod.mk.injEq] at h
        exact Or.inl ⟨h.1.symm, h.2.symm⟩
    · simp [EntryOp.apply, retype_of_above hr, Except.map] at h
  | increment =>
    simp only [EntryOp.apply, Except.ok.injEq, Prod.mk.injEq] at h
    obtain ⟨rfl, rfl⟩ := h
    by_cases hm : e.get.2 = 16383
    · rw [increment_of_max hm]; exact Or.inl ⟨rfl, rfl⟩
    · obtain ⟨h1, h2⟩ := increment_of_ne hm
      rw [h1]; exact Or.inr ⟨rfl, hm, h2⟩
  | getAsAndIncrement wants =>
    simp only [EntryOp.apply, Except.ok.injEq, Prod.mk.injEq] at h
    obtain ⟨rfl, rfl⟩ := h
    by_cases hm : e.get.1 ≠ wants ∨ e.get.2 = 16383
    · rw [getAsAndIncrement_of_not hm]; exact Or.inl ⟨rfl, rfl⟩
    · rw [not_or, not_not] at hm
      obtain ⟨h1, h2⟩ := getAsAndIncrement_of_room hm.1 hm.2
      rw [h1]; exact Or.inr ⟨rfl, hm.1, hm.2, h2⟩
  | decrement =>
    simp only [EntryOp.apply, Except.ok.injEq, Prod.mk.injEq] at h
    obtain ⟨rfl, rfl⟩ := h
    by_cases hm : e.get.2 = 0
    · rw [decrement_of_zero hm]; exact Or.inl ⟨rfl, rfl⟩
    · obtain ⟨h1, h2⟩ := decrement_of_ne hm
      rw [h1]; exact Or.inr ⟨rfl, hm, h2⟩

theorem failsExactly (e : RetypeEntry) : FailsExactly e where
  increment := by
    rw [maxRefCount_eq]
    by_cases h : e.get.2 = 16383
    · rw [increment_of_max h]; simp [isOk, h]
    · rw [(increment_of_ne h).1]; simp [isOk, h]
  getAsAndIncrement wants hs := by
    rw [maxRefCount_eq]
    by_cases h : e.get.2 = 16383
    · rw [getAsAndIncrement_of_not (Or.inr h)]; simp [isOk, h]
    · rw [(getAsAndIncrement_of_room hs h).1]; simp [isOk, h]
  decrement := by
    by_cases h : e.get.2 = 0
    · rw [decrement_of_zero h]; simp [isOk, h]
    · rw [(decrement_of_ne h).1]; simp [isOk, h]
  unchanged op e' h := by
    rcases EntryOp.apply_cases h with ⟨_, he⟩ | ⟨hok, _⟩
    · exact he
    · exact absurd hok (by decide)

/-- A step that panics is a `retype` with a counter above the limit. -/
theorem EntryOp.keeps_of_panic {op : EntryOp} {e : RetypeEntry} {p : Panic}
    (h : op.apply e = .error p) : op.Keeps e := by
  cases op with
  | retype fs ts fc tc =>
    intro ht hf hg
    obtain ⟨e₁, he, _⟩ := retype_of_eq ts fc tc hf (Nat.le_of_eq ht) hg
    simp [EntryOp.apply, he, Except.map] at h
  | increment => trivial
  | getAsAndIncrement wants => simp [EntryOp.apply] at h
  | decrement => trivial

/-- **A step from an exact counter leaves it exact iff it does not write `MAX_REF_COUNT` through
`value_for`.** -/
theorem tally_step_iff {s t : Tallied} {op : EntryOp} (hs : s.Exact) (h : TallyStep s op t) :
    t.Exact ↔ op.Keeps s.entry := by
  obtain ⟨ok, ha, ht⟩ := h
  unfold Tallied.Exact at hs ⊢
  have hle := s.entry.get_snd_le
  rcases EntryOp.apply_cases ha with ⟨rfl, he⟩ | ⟨rfl, heff⟩
  · have hk : op.Keeps s.entry := by
      -- a failed step wrote nothing, so its compare-exchange did not match
      cases op with
      | increment | decrement => trivial
      | getAsAndIncrement wants =>
        intro hg
        rw [maxRefCount_eq] at hg
        have hf := (failsExactly s.entry).getAsAndIncrement wants (congrArg Prod.fst hg)
        simp only [EntryOp.apply, Except.ok.injEq, Prod.mk.injEq] at ha
        have h2 := congrArg Prod.snd hg
        rw [hf.mp ha.1, maxRefCount_eq] at h2
        simp only at h2
        omega
      | retype fs ts fc tc =>
        intro htc hfc hg
        obtain ⟨e₁, hr, _⟩ := retype_of_eq ts fc tc hfc (Nat.le_of_eq htc) hg
        simp [EntryOp.apply, hr, Except.map, isOk] at ha
    rw [he, ht]
    exact ⟨fun _ => hk, fun _ => hs⟩
  · rw [ht]
    cases op with
    | retype fs ts fc tc =>
      obtain ⟨hf, htc, hg, hg'⟩ := heff
      simp only [EntryOp.tally, EntryOp.Keeps, hg', hg, maxRefCount_eq] at hf htc ⊢
      rcases Nat.lt_or_eq_of_le htc with hlt | heq
      · rw [Nat.mod_eq_of_lt hlt]
        simp only [true_iff]
        intro h; omega
      · simp [heq, hf]
    | increment =>
      simp only [EntryOp.tally, EntryOp.Keeps, heff.2, iff_true]
      omega
    | getAsAndIncrement wants =>
      obtain ⟨hw, hm, hg'⟩ := heff
      simp only [EntryOp.tally, EntryOp.Keeps, hg', maxRefCount_eq]
      by_cases h : s.entry.get.2 = 16382
      · have : s.entry.get = (wants, 16382) := Prod.ext hw h
        simp only [this, ne_eq, not_true_eq_false, iff_false]
        omega
      · have : s.entry.get ≠ (wants, 16382) := fun he => h (congrArg Prod.snd he)
        rw [Nat.mod_eq_of_lt (by omega)]
        simp only [this, ne_eq, not_false_eq_true, iff_true]
        omega
    | decrement =>
      simp only [EntryOp.tally, EntryOp.Keeps, heff.2, iff_true]
      have := heff.1
      omega

theorem start_exact_iff (c : EntryInit) : c.start.Exact ↔ c.count ≠ maxRefCount := by
  cases c with
  | unavailable => simp [Tallied.Exact, EntryInit.start, EntryInit.entry, EntryInit.count,
      maxRefCount_eq]
  | untyped => simp [Tallied.Exact, EntryInit.start, EntryInit.entry, EntryInit.count,
      maxRefCount_eq]
  | kernel n h =>
    simp only [Tallied.Exact, EntryInit.start, EntryInit.entry, EntryInit.count, get_kernel,
      maxRefCount_eq] at h ⊢
    omega

theorem exact_law (s : Tallied) (h : s.Exact) : s.Exact ∧ FailsExactly s.entry :=
  ⟨h, failsExactly _⟩

theorem exact_keep (s : Tallied) (op : EntryOp) (t : Tallied) (hs : s.Exact)
    (hk : op.Keeps s.entry) (h : TallyStep s op t) : t.Exact :=
  (tally_step_iff hs h).mpr hk

theorem exact_break (s : Tallied) (op : EntryOp) (hs : s.Exact) (hk : ¬ op.Keeps s.entry) :
    ∃ t, TallyStep s op t ∧ ¬ (t.Exact ∧ FailsExactly t.entry) := by
  cases ha : op.apply s.entry with
  | error p => exact absurd (EntryOp.keeps_of_panic ha) hk
  | ok r =>
    obtain ⟨ok, e'⟩ := r
    have hstep : TallyStep s op ⟨e', op.tally s.expected ok⟩ := ⟨ok, ha, rfl⟩
    exact ⟨_, hstep, fun ht => hk ((tally_step_iff hs hstep).mp ht.1)⟩

/-- **The counter is exact over a sequence iff no step of it writes `MAX_REF_COUNT` through
`value_for`.** -/
theorem counterLaw_iff (c : EntryInit) (ops : List EntryOp) :
    CounterLaw c ops ↔ NeverWritesMax c ops := by
  constructor
  · intro hlaw
    have h0 := (hlaw [] ops c.start rfl (Run.nil _)).1
    refine ⟨(start_exact_iff c).mp h0, ?_⟩
    exact (along_iff h0 exact_law exact_keep exact_break).mp hlaw
  · rintro ⟨h0, hk⟩
    exact (along_iff ((start_exact_iff c).mpr h0) exact_law exact_keep exact_break).mpr hk

/-- The two increments, where both are allowed, leave the same word unless the counter is one
below the limit. -/
theorem increments_agree_iff {e : RetypeEntry} {wants : State} (hs : e.get.1 = wants)
    (hc : e.get.2 ≠ 16383) :
    (e.getAsAndIncrement wants).2 = e.increment.2 ↔ e.get.2 ≠ 16382 := by
  have hle := e.get_snd_le
  have h1 := (getAsAndIncrement_of_room hs hc).2
  have h2 := (increment_of_ne hc).2
  constructor
  · intro heq h
    have := congrArg (fun x => x.get.2) heq
    simp only [h1, h2, h] at this
    exact absurd this (by decide)
  · intro h
    apply eq_of_get
    rw [h1, h2, hs, Nat.mod_eq_of_lt (by omega)]

/-- **How exact the packed counter is.** Over every sequence of steps from every constructor the
counter is the tally of the successful steps, and each step fails exactly at its limit, iff
`value_for` is never given `MAX_REF_COUNT`; and the two increments agree except one below the
limit. -/
theorem packed_counter_exact (c : EntryInit) (ops : List EntryOp) :
    (CounterLaw c ops ↔ NeverWritesMax c ops) ∧
    (∀ (e : RetypeEntry) (wants : State), e.get.1 = wants → e.get.2 ≠ maxRefCount →
      ((e.getAsAndIncrement wants).2 = e.increment.2 ↔ e.get.2 ≠ maxRefCount - 1)) :=
  ⟨counterLaw_iff c ops, fun _ _ hs hc => increments_agree_iff hs hc⟩

/-- A frame with 16382 references acquires the 16383rd through `get_as_and_increment`, and its
counter reads 0. -/
theorem packed_counter_wraps :
    ¬ CounterLaw (.kernel 16382 (by decide)) [.getAsAndIncrement .kernel] := by
  intro hlaw
  have hrun : Run TallyStep (EntryInit.kernel 16382 (by decide)).start
      [.getAsAndIncrement .kernel] ⟨RetypeEntry.kernel 0 (by decide), 16383⟩ :=
    Run.cons ⟨true, by decide, by decide⟩ (Run.nil _)
  have hread : ((RetypeEntry.kernel 0 (by decide)).get.2 : Int) = 16383 :=
    (hlaw _ [] _ rfl hrun).1
  exact absurd hread (by decide)

end Harmony
