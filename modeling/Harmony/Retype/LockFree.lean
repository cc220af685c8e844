import Mathlib.Algebra.Ring.Int.Defs
import Harmony.Retype.Counter
import Harmony.Lib.Linear

/-!
# The methods of a retype entry, step by step

`RetypeEntry` (`harmony/kernel/src/retyping.rs`) is one `AtomicU16`. `increment`, `decrement` and
`get_as_and_increment` are `fetch_update`s: a load and a loop around a weak compare-exchange, so
other cores can change the entry between two steps of one call. `retype` is one compare-exchange and
`get` one load. All orderings are `Relaxed`, and there is one word: its accesses have one order.

`Retype/Entry.lean` has each method as one step. Here the calls take their steps in any
interleaving, and the two levels are compared.

* `entry_calls_linearizable`: the calls that have returned did to the entry, and returned, what the
  methods of `Retype/Entry.lean` do one after another. The order agrees with real time.
* `entry_calls_bounded`: a call that keeps losing the race loses it to calls that take effect after
  its own first access, and never waits for one.
* `racing_counts_exact`: the counter is what the calls that succeeded took and gave back, but for
  the `get_as_and_increment` that meets `MAX_REF_COUNT - 1` and stores 0.
-/

namespace Harmony

open Lib

/-- A call of a method. `retype` packs its two words before it touches the entry, and a counter
above `MAX_REF_COUNT` panics there. -/
inductive EntryCall where
  | increment
  | decrement
  | getAsAndIncrement (wants : State)
  | retype (fromState toState : State) (fromCounter toCounter : Nat)
      (hfrom : fromCounter ≤ RetypeEntry.maxRefCount) (hto : toCounter ≤ RetypeEntry.maxRefCount)
  | get

/-- What a call returns. -/
inductive EntryReturn where
  | incremented (r : Except MaxRefs Nat)
  | decremented (r : Except NoRefs Nat)
  | acquired (r : Except (State × Nat) Unit)
  | changed (r : Except (State × Nat) Unit)
  | read (state : State) (counter : Nat)

namespace EntryCall

open RetypeEntry (maxRefCount valueFor valueInto)

/-- The call in one step. -/
def atomic (e : RetypeEntry) : EntryCall → RetypeEntry × EntryReturn
  | .increment => (e.increment.2, .incremented e.increment.1)
  | .decrement => (e.decrement.2, .decremented e.decrement.1)
  | .getAsAndIncrement wants =>
    ((e.getAsAndIncrement wants).2, .acquired (e.getAsAndIncrement wants).1)
  | .retype fs ts fc tc hf ht =>
    ((e.compareExchange (valueFor fs fc hf) (valueFor ts tc ht)).2,
      .changed (((e.compareExchange (valueFor fs fc hf) (valueFor ts tc ht)).1.map
        fun _ => ()).mapError valueInto))
  | .get => (e, .read e.get.1 e.get.2)

/-- The closure of `get_as_and_increment`. -/
def gains (wants : State) (value : BitVec 16) : Option (BitVec 16) :=
  let state := (valueInto value).1
  let count := (valueInto value).2
  if h : count < maxRefCount then
    if wants = state then some (valueFor state (count + 1) h) else none
  else none

/-- The method of `AtomicU16` the call is, and what it makes of the result. -/
def call : EntryCall → AtomicCall (BitVec 16) EntryReturn
  | .increment =>
    { op := .fetchUpdate fun value =>
        let counter := (valueInto value).2
        if counter = maxRefCount then none else some (value + 1)
      answer := fun r =>
        .incremented ((r.map fun entry => (valueInto entry).2).mapError fun _ => .mk) }
  | .decrement =>
    { op := .fetchUpdate fun value =>
        let counter := (valueInto value).2
        if counter = 0 then none else some (value - 1)
      answer := fun r =>
        .decremented ((r.map fun entry => (valueInto entry).2).mapError fun _ => .mk) }
  | .getAsAndIncrement wants =>
    { op := .fetchUpdate (gains wants)
      answer := fun r => .acquired ((r.map fun _ => ()).mapError valueInto) }
  | .retype fs ts fc tc hf ht =>
    { op := .compareExchange (valueFor fs fc hf) (valueFor ts tc ht)
      answer := fun r => .changed ((r.map fun _ => ()).mapError valueInto) }
  | .get =>
    { op := .load
      answer := fun r =>
        match r with
        | .ok value => .read (valueInto value).1 (valueInto value).2
        | .error value => .read (valueInto value).1 (valueInto value).2 }

/-- The call in one step, on the word. -/
def onWord (c : EntryCall) (w : BitVec 16) : BitVec 16 × EntryReturn :=
  ((c.atomic ⟨w⟩).1.word, (c.atomic ⟨w⟩).2)

/-- `retype` is the `retype` of one step, where its counters pass the assertion. -/
theorem atomic_retype {fs ts : State} {fc tc : Nat} {hf : fc ≤ maxRefCount} {ht : tc ≤ maxRefCount}
    (e : RetypeEntry) : (e.retype fs ts fc tc).map (fun r => (r.2, EntryReturn.changed r.1)) =
      .ok (EntryCall.atomic e (.retype fs ts fc tc hf ht)) := by
  unfold RetypeEntry.retype
  rw [dif_pos hf, dif_pos ht]
  rfl

/-- `fetch_update` in one step. -/
theorem fetchUpdate_atomic (f : BitVec 16 → Option (BitVec 16)) (w : BitVec 16) :
    (AtomicOp.fetchUpdate f).atomic w =
      (((⟨w⟩ : RetypeEntry).fetchUpdate f).2.word, ((⟨w⟩ : RetypeEntry).fetchUpdate f).1) := by
  simp only [AtomicOp.atomic, RetypeEntry.fetchUpdate]
  cases f w <;> rfl

/-- `compare_exchange` in one step. -/
theorem compareExchange_atomic (current new w : BitVec 16) :
    (AtomicOp.compareExchange current new).atomic w =
      (((⟨w⟩ : RetypeEntry).compareExchange current new).2.word,
        ((⟨w⟩ : RetypeEntry).compareExchange current new).1) := by
  simp only [AtomicOp.atomic, Lib.compareExchange, RetypeEntry.compareExchange]
  split_ifs <;> rfl

/-- **Each call, where it takes effect, is the method of one step.** -/
theorem call_spec (c : EntryCall) : c.call.spec = c.onWord := by
  funext w
  cases c with
  | increment | decrement =>
    unfold AtomicCall.spec call
    simp only [fetchUpdate_atomic]
    rfl
  | getAsAndIncrement wants =>
    have hgains : gains wants = fun value =>
        if h : wants = (valueInto value).1 ∧ (valueInto value).2 < maxRefCount then
          some (valueFor (valueInto value).1 ((valueInto value).2 + 1) h.2) else none := by
      funext value
      unfold gains
      by_cases hroom : (valueInto value).2 < maxRefCount
      · by_cases hstate : wants = (valueInto value).1 <;> simp [hroom, hstate]
      · simp [hroom]
    unfold AtomicCall.spec call
    simp only [fetchUpdate_atomic, hgains]
    rfl
  | retype fs ts fc tc hf ht =>
    unfold AtomicCall.spec call
    simp only [compareExchange_atomic]
    rfl
  | get => rfl

end EntryCall

section Race

variable {C : Type} [DecidableEq C] {calls : C → EntryCall} {e : RetypeEntry}
  {s t : Calls C (BitVec 16) (AtomicPc (BitVec 16))} {ls ms : List (C × AtomicAct)} {order : List C}

/-- A step of one of the calls on one entry. -/
abbrev EntryRace (calls : C → EntryCall) :=
  Calls.Step (AtomicCall.code fun c => (calls c).call)

/-- The calls that have returned are those of `order`; entry and results are as if they were made in
that order, each in one step. -/
abbrev EntryOrder (calls : C → EntryCall) (e : RetypeEntry) (order : List C)
    (s : Calls C (BitVec 16) (AtomicPc (BitVec 16))) : Prop :=
  Linear (fun c => (calls c).onWord) (fun c => (calls c).call.result) e.word order s

omit [DecidableEq C] in
theorem entryOrder_eq :
    EntryOrder calls e order s = AtomicCall.Ordered (fun c => (calls c).call) e.word order s := by
  simp only [EntryOrder, AtomicCall.Ordered, EntryCall.call_spec]

theorem EntryOrder.run (h : EntryOrder calls e order s) (r : Run (EntryRace calls) s ls t) :
    ∃ more, EntryOrder calls e (order ++ more) t := by
  simp only [entryOrder_eq] at h ⊢
  exact AtomicCall.ordered_run h r

omit [DecidableEq C] in
theorem entryOrder_init : EntryOrder calls e [] (AtomicCall.init e.word) := by
  rw [entryOrder_eq]
  exact AtomicCall.ordered_init

/-- **The methods of `RetypeEntry` are linearizable.** Any number of calls race on one entry, step
by step and with spurious failures. At every moment the calls that have returned left the entry, and
returned, what the one-step methods do in some order, and the calls that return later come after
them in it. -/
theorem entry_calls_linearizable (r : Run (EntryRace calls) (AtomicCall.init e.word) ls s)
    (r' : Run (EntryRace calls) s ms t) :
    ∃ before after, EntryOrder calls e before s ∧ EntryOrder calls e (before ++ after) t := by
  obtain ⟨before, hs⟩ := entryOrder_init.run r
  obtain ⟨after, ht⟩ := hs.run r'
  exact ⟨before, after, hs, ht⟩

/-- An entry with one reference. -/
def oneReference : RetypeEntry := RetypeEntry.kernel 1 RetypeEntry.one_le_maxRefCount

/-- An `increment`, a `get_as_and_increment` and a `decrement` of one entry. -/
def threeCounts : Fin 3 → EntryCall
  | 0 => .increment
  | 1 => .getAsAndIncrement .kernel
  | 2 => .decrement

/-- The `increment` loses its exchange twice, and comes last. -/
theorem entry_calls_linearizable_threeCounts :
    ∃ s t, Run (EntryRace threeCounts) (AtomicCall.init oneReference.word)
        [(0, .go), (1, .go), (1, .go), (0, .go)] s ∧
      Run (EntryRace threeCounts) s [(2, .go), (0, .spurious), (2, .go), (0, .go), (0, .go)] t ∧
      ∃ before after, EntryOrder threeCounts oneReference before s ∧
        EntryOrder threeCounts oneReference (before ++ after) t := by
  have hrun : ∃ s t, Run (EntryRace threeCounts) (AtomicCall.init oneReference.word)
        [(0, .go), (1, .go), (1, .go), (0, .go)] s ∧
      Run (EntryRace threeCounts) s [(2, .go), (0, .spurious), (2, .go), (0, .go), (0, .go)] t :=
    ⟨_, _, Calls.run_of_exec rfl, Calls.run_of_exec rfl⟩
  obtain ⟨s, t, r, r'⟩ := hrun
  exact ⟨s, t, r, r', entry_calls_linearizable r r'⟩

/-- The accesses of one call. -/
theorem count_accesses (ls : List (C × AtomicAct)) (c : C) :
    ls.countP (fun l => l.1 = c) = ls.count (c, .spurious) + ls.count (c, .go) := by
  induction ls with
  | nil => rfl
  | cons l ls ih =>
    obtain ⟨d, act⟩ := l
    by_cases hd : d = c
    · subst hd
      cases act <;> simp [ih] <;> omega
    · simp [ih, hd]

/-- **A call that keeps losing the race loses it to calls that take effect meanwhile.** From its
first access on, and its own spurious failures apart, it accesses the entry twice more than there
are other calls that take effect, at most: once more while it has not returned, and then it can go
on. -/
theorem entry_calls_bounded {c : C} (r : Run (EntryRace calls) (AtomicCall.init e.word) ls s)
    (hstart : s.pc c = .start) (r' : Run (EntryRace calls) s ((c, .go) :: ms) t) :
    ∃ meanwhile : List C, meanwhile.Nodup ∧
      (∀ d, d ∈ meanwhile ↔ d ≠ c ∧ (calls d).call.result (s.pc d) = none ∧
        ((calls d).call.result (t.pc d)).isSome) ∧
      ((c, AtomicAct.go) :: ms).countP (fun l => l.1 = c) ≤
        ms.count (c, .spurious) + meanwhile.length + 2 ∧
      ((calls c).call.result (t.pc c) = none →
        ((c, AtomicAct.go) :: ms).countP (fun l => l.1 = c) ≤
          ms.count (c, .spurious) + meanwhile.length + 1 ∧
        ∃ u, EntryRace calls t (c, .go) u) := by
  obtain ⟨before, hs⟩ := AtomicCall.ordered_run AtomicCall.ordered_init r
  rw [List.nil_append] at hs
  obtain ⟨more, ht, hpaced⟩ := AtomicCall.accesses_le hs hstart r'
  have hcount := count_accesses ((c, AtomicAct.go) :: ms) c
  have hspurious : ((c, AtomicAct.go) :: ms).count (c, .spurious) = ms.count (c, .spurious) := by
    simp
  refine ⟨more.filter (· ≠ c), (List.nodup_append.mp ht.nodup).2.1.filter _, fun d => ?_, ?_,
    fun hopen => ⟨?_, AtomicCall.goes (r.trans r') hopen⟩⟩
  · -- the calls that have returned at the end are those of before and the ones since
    have hbefore : d ∈ before ↔ _ := hs.mem_iff
    have hafter : d ∈ before ++ more ↔ _ := ht.mem_iff
    have hapart : d ∈ before → d ∉ more := fun h hmore =>
      (List.nodup_append.mp ht.nodup).2.2 d h d hmore rfl
    rw [← hafter, ← Option.not_isSome_iff_eq_none, ← hbefore, List.mem_filter, decide_eq_true_iff,
      List.mem_append]
    tauto
  · have hle := hpaced.le
    omega
  · have hle := hpaced.le_of_open (Option.map_eq_none_iff.mp hopen)
    omega

/-- The `increment` starts after the `get_as_and_increment` has returned, and loses one exchange to
the `decrement`. -/
theorem entry_calls_bounded_threeCounts :
    ∃ s t, Run (EntryRace threeCounts) (AtomicCall.init oneReference.word) [(1, .go), (1, .go)] s ∧
      s.pc 0 = .start ∧
      Run (EntryRace threeCounts) s [(0, .go), (2, .go), (2, .go), (0, .go), (0, .go)] t ∧
      ∃ meanwhile : List (Fin 3), meanwhile.Nodup ∧
        (∀ d, d ∈ meanwhile ↔ d ≠ 0 ∧ (threeCounts d).call.result (s.pc d) = none ∧
          ((threeCounts d).call.result (t.pc d)).isSome) ∧
        [((0 : Fin 3), AtomicAct.go), (2, .go), (2, .go), (0, .go), (0, .go)].countP
            (fun l => l.1 = 0) ≤ 0 + meanwhile.length + 2 := by
  have hrun : ∃ s t,
      Run (EntryRace threeCounts) (AtomicCall.init oneReference.word) [(1, .go), (1, .go)] s ∧
      s.pc 0 = .start ∧
      Run (EntryRace threeCounts) s [(0, .go), (2, .go), (2, .go), (0, .go), (0, .go)] t :=
    ⟨_, _, Calls.run_of_exec rfl, rfl, Calls.run_of_exec rfl⟩
  obtain ⟨s, t, r, hstart, r'⟩ := hrun
  obtain ⟨meanwhile, hnodup, hmem, hle, _⟩ := entry_calls_bounded r hstart r'
  exact ⟨s, t, r, hstart, r', meanwhile, hnodup, hmem, hle⟩

/-! ### Counting -/

/-- The references a call has taken, less those it gave back. -/
def EntryReturn.gain : EntryReturn → Int
  | .incremented (.ok _) => 1
  | .decremented (.ok _) => -1
  | .acquired (.ok _) => 1
  | _ => 0

/-- The references a call has added. -/
def gained (calls : C → EntryCall) (s : Calls C (BitVec 16) (AtomicPc (BitVec 16))) (c : C) : Int :=
  (((calls c).call.result (s.pc c)).map EntryReturn.gain).getD 0

/-- The references that a call on `e` makes the entry forget: `get_as_and_increment` packs the new
counter with `value_for`, which makes 0 of `MAX_REF_COUNT`. -/
def EntryCall.forgets (e : RetypeEntry) : EntryCall → Int
  | .getAsAndIncrement wants =>
    if e.get = (wants, RetypeEntry.maxRefCount - 1) then RetypeEntry.maxRefCount else 0
  | _ => 0

/-- Every method but `retype`: what does not touch the state. -/
def EntryCall.Counts : EntryCall → Prop
  | .retype _ _ _ _ _ _ => False
  | _ => True

/-- `get_as_and_increment` counts what it adds, but for the one wrap. -/
theorem EntryCall.get_getAsAndIncrement (e : RetypeEntry) (wants : State) :
    (e.getAsAndIncrement wants).2.get.1 = e.get.1 ∧
      ((e.getAsAndIncrement wants).2.get.2 : Int) + (getAsAndIncrement wants).forgets e =
        e.get.2 + (EntryReturn.acquired (e.getAsAndIncrement wants).1).gain := by
  have hle := e.get_snd_le
  by_cases hroom : e.get.1 = wants ∧ e.get.2 ≠ 16383
  · obtain ⟨hstate, hcount⟩ := hroom
    obtain ⟨hres, hget⟩ := RetypeEntry.getAsAndIncrement_of_room hstate hcount
    rw [hres, hget]
    refine ⟨hstate.symm, ?_⟩
    by_cases hwrap : e.get.2 = 16382
    · rw [forgets, RetypeEntry.maxRefCount_eq, if_pos (Prod.ext hstate hwrap), hwrap]
      simp [EntryReturn.gain]
    · have hother : e.get ≠ (wants, 16383 - 1) := fun h => hwrap (congrArg Prod.snd h)
      rw [forgets, RetypeEntry.maxRefCount_eq, if_neg hother]
      simp only [EntryReturn.gain]
      omega
  · have hnot : e.get.1 ≠ wants ∨ e.get.2 = 16383 := by tauto
    have hother : e.get ≠ (wants, 16383 - 1) := by
      intro h
      rcases hnot with hne | hmax
      · exact hne (congrArg Prod.fst h)
      · rw [h] at hmax
        cases hmax
    rw [RetypeEntry.getAsAndIncrement_of_not hnot, forgets, RetypeEntry.maxRefCount_eq,
      if_neg hother]
    exact ⟨rfl, rfl⟩

/-- **Such a call counts what it adds**, but for the one wrap, and leaves the state. -/
theorem EntryCall.Counts.get_atomic {c : EntryCall} (h : c.Counts) (e : RetypeEntry) :
    (c.atomic e).1.get.1 = e.get.1 ∧
      ((c.atomic e).1.get.2 : Int) + c.forgets e = e.get.2 + (c.atomic e).2.gain := by
  cases c with
  | getAsAndIncrement wants => exact get_getAsAndIncrement e wants
  | retype fs ts fc tc hf ht => exact h.elim
  | get => exact ⟨rfl, rfl⟩
  | increment =>
    by_cases hmax : e.get.2 = 16383
    · simp [atomic, RetypeEntry.increment_of_max hmax, EntryReturn.gain, forgets]
    · obtain ⟨hres, hget⟩ := RetypeEntry.increment_of_ne hmax
      simp [atomic, hres, hget, EntryReturn.gain, forgets]
  | decrement =>
    by_cases hzero : e.get.2 = 0
    · simp [atomic, RetypeEntry.decrement_of_zero hzero, EntryReturn.gain, forgets]
    · obtain ⟨hres, hget⟩ := RetypeEntry.decrement_of_ne hzero
      simp only [atomic, hres, hget, EntryReturn.gain, forgets, true_and]
      omega

/-- What the calls of a list, made one after another on `e`, make the entry forget. -/
def forgotten (calls : C → EntryCall) (e : RetypeEntry) (order : List C) : Int :=
  (observed (fun c => (calls c).onWord) (fun c w => (calls c).forgets ⟨w⟩) e.word order).sum

omit [DecidableEq C] in
/-- The calls of a prefix of the order, one after another. -/
theorem EntryOrder.get_serially (h : EntryOrder calls e order s) (hcounts : ∀ c, (calls c).Counts)
    {pre post : List C} (hsplit : order = pre ++ post) :
    let e' : RetypeEntry := ⟨serially (fun c => (calls c).onWord) e.word pre⟩
    e'.get.1 = e.get.1 ∧
      (e'.get.2 : Int) + forgotten calls e pre = e.get.2 + (pre.map (gained calls s)).sum := by
  induction pre using List.reverseRecOn generalizing post with
  | nil => simp [serially, forgotten, observed]
  | append_singleton pre c ih =>
    have hplace : order = pre ++ c :: post := by simpa using hsplit
    obtain ⟨hstate, hcount⟩ := ih hplace
    obtain ⟨hstate', hcount'⟩ :=
      (hcounts c).get_atomic ⟨serially (fun c => (calls c).onWord) e.word pre⟩
    have hgain : gained calls s c =
        ((calls c).onWord (serially (fun c => (calls c).onWord) e.word pre)).2.gain := by
      unfold gained
      rw [h.returned pre c post hplace]
      rfl
    have hforgotten : forgotten calls e (pre ++ [c]) = forgotten calls e pre +
        (calls c).forgets ⟨serially (fun c => (calls c).onWord) e.word pre⟩ := by
      unfold forgotten
      rw [observed_concat, List.sum_append, List.sum_singleton]
    rw [serially_concat, List.map_append, List.sum_append, List.map_singleton, List.sum_singleton,
      hgain, hforgotten]
    refine ⟨hstate'.trans hstate, ?_⟩
    show ((EntryCall.atomic _ (calls c)).1.get.2 : Int) + _ = _
    have hgain' : ((calls c).onWord (serially (fun c => (calls c).onWord) e.word pre)).2.gain =
        (EntryCall.atomic ⟨serially (fun c => (calls c).onWord) e.word pre⟩ (calls c)).2.gain := rfl
    rw [hgain']
    omega

/-- **No racing call loses a reference**, but for the one wrap of `get_as_and_increment`. However
the calls interleave, those that have returned took effect in one order; the counter is what it was,
plus the references taken by the increments of either kind that succeeded, less those given back by
the decrements that did, less `MAX_REF_COUNT` for each `get_as_and_increment` that met
`MAX_REF_COUNT - 1` in that order; and the state is what it was. -/
theorem racing_counts_exact (hcounts : ∀ c, (calls c).Counts)
    (r : Run (EntryRace calls) (AtomicCall.init e.word) ls s) :
    ∃ order : List C, EntryOrder calls e order s ∧
      (∀ d, d ∈ order ↔ ((calls d).call.result (s.pc d)).isSome) ∧
      (⟨s.mem⟩ : RetypeEntry).get.1 = e.get.1 ∧
      ((⟨s.mem⟩ : RetypeEntry).get.2 : Int) =
        e.get.2 + (order.map (gained calls s)).sum - forgotten calls e order := by
  obtain ⟨order, hord⟩ := entryOrder_init.run r
  rw [List.nil_append] at hord
  obtain ⟨hstate, hcount⟩ := hord.get_serially hcounts (List.append_nil order).symm
  rw [← hord.mem] at hstate hcount
  exact ⟨order, hord, fun _ => hord.mem_iff, hstate, by omega⟩

theorem racing_counts_exact_threeCounts :
    ∃ s, Run (EntryRace threeCounts) (AtomicCall.init oneReference.word)
        [(0, .go), (1, .go), (1, .go), (0, .go), (0, .go), (2, .go), (2, .go)] s ∧
      ∃ order : List (Fin 3), EntryOrder threeCounts oneReference order s ∧
        (∀ d, d ∈ order ↔ ((threeCounts d).call.result (s.pc d)).isSome) ∧
        (⟨s.mem⟩ : RetypeEntry).get.1 = .kernel ∧
        ((⟨s.mem⟩ : RetypeEntry).get.2 : Int) = 1 + (order.map (gained threeCounts s)).sum -
          forgotten threeCounts oneReference order := by
  have hcounts : ∀ c, (threeCounts c).Counts := by
    intro c
    match c with
    | 0 | 1 | 2 => trivial
  have hrun : ∃ s, Run (EntryRace threeCounts) (AtomicCall.init oneReference.word)
      [(0, .go), (1, .go), (1, .go), (0, .go), (0, .go), (2, .go), (2, .go)] s :=
    ⟨_, Calls.run_of_exec rfl⟩
  obtain ⟨s, r⟩ := hrun
  exact ⟨s, r, racing_counts_exact hcounts r⟩

end Race

end Harmony
