import Mathlib.Data.List.Chain
import Harmony.Retype.Counter
import Harmony.Retype.Frames

/-!
# Retyping from many cores

The retype table as the cores share it: each `compare_exchange` or `fetch_update` on an entry is
one atomic step, and any number of cores take such steps in any order. Every method is one step,
except `try_into_untyped`, which is two compare-exchanges: between them the core is `halfway` and
the others go on. A core whose debug assertion panics takes no further step, so its runs are among
these.

* `Step.effect`: everything one step can do to the table.
* `Step.event_spec`: a claim finds its frame `Untyped` and leaves it typed, a release the reverse,
  and every other step keeps the frame's state.
* `alternates`: so claims and releases of a frame alternate over any run.
* `Method.call_run`: a call on one core, taken alone, is a run of this system.
-/

namespace Harmony

open Lib

/-- The methods whose steps interleave. -/
inductive Method where
  | tryIntoUser
  | tryIntoKernel
  | tryAsUser
  | tryAsKernel
  | tryAsUntyped
  | tryIntoUntyped
  | increment
  | decrement
  deriving DecidableEq, Repr

/-- The one step on the entry the method takes; `try_as_untyped` only reads, and
`try_into_untyped` takes two. -/
def Method.entryOp : Method → Option EntryOp
  | .tryIntoUser => some (.retype .untyped .user 0 1)
  | .tryIntoKernel => some (.retype .untyped .kernel 0 1)
  | .tryAsUser => some (.getAsAndIncrement .user)
  | .tryAsKernel => some (.getAsAndIncrement .kernel)
  | .increment => some .increment
  | .decrement => some .decrement
  | .tryAsUntyped | .tryIntoUntyped => none

/-- The shared table, and the frame each core is releasing after its first compare-exchange
failed. -/
structure Sys (C : Type) where
  table : List RetypeEntry
  halfway : C → Option RawFrame

/-- One step: who, in which call, on which frame, and what the call returned if the step ended
it (`true` for `Ok`). -/
structure Label (C : Type) where
  core : C
  method : Method
  frame : RawFrame
  returned : Option Bool

/-- The edges of the state graph. -/
def State.Edge : State → State → Bool
  | .untyped, .user | .untyped, .kernel | .user, .untyped | .kernel, .untyped => true
  | _, _ => false

variable {C : Type}

/-- The state of frame number `n`. -/
def Sys.state (s : Sys C) (n : Nat) : Option State := s.table[n]?.map fun e => e.get.1

/-- A `try_into_user` or `try_into_kernel` that returned `Ok`. -/
def Label.claims (l : Label C) : Bool :=
  (l.method == .tryIntoUser || l.method == .tryIntoKernel) && l.returned == some true

/-- A `try_into_untyped` that returned `Ok`. -/
def Label.releases (l : Label C) : Bool :=
  l.method == .tryIntoUntyped && l.returned == some true

/-- What the step is to frame number `n`: a successful claim (`true`), a successful release
(`false`), or neither. -/
def Label.event (n : Nat) (l : Label C) : Option Bool :=
  if l.frame.number = n then
    if l.claims then some true else if l.releases then some false else none
  else none

theorem Label.event_of_ne {l : Label C} {n : Nat} (hn : n ≠ l.frame.number) : l.event n = none :=
  if_neg hn.symm

theorem Label.event_eq_none {l : Label C} {n : Nat} (hc : l.claims = false)
    (hr : l.releases = false) : l.event n = none := by
  simp [Label.event, hc, hr]

theorem Sys.state_of_entry {s : Sys C} {n : Nat} {e : RetypeEntry} (h : s.table[n]? = some e) :
    s.state n = some e.get.1 := by
  simp only [Sys.state, h, Option.map_some]

/-- Alternating events without a release: at most one claim. -/
theorem one_claim_of_alternate {ls : List (Label C)} {n : Nat}
    (h : List.IsChain (· ≠ ·) (ls.filterMap (Label.event n)))
    (hno : ∀ l ∈ ls, l.event n ≠ some false) :
    ls.countP (fun l => l.event n == some true) ≤ 1 := by
  have hall : ∀ b ∈ ls.filterMap (Label.event n), b = true := by
    intro b hb
    obtain ⟨l, hl, hev⟩ := List.mem_filterMap.mp hb
    cases b with
    | true => rfl
    | false => exact absurd hev (hno l hl)
  have hlen : (ls.filterMap (Label.event n)).length ≤ 1 := by
    match hevs : ls.filterMap (Label.event n) with
    | [] | [_] => simp
    | a :: b :: rest =>
      rw [hevs] at h hall
      have hab := (List.isChain_cons_cons.mp h).1
      rw [hall a (by simp), hall b (by simp)] at hab
      exact absurd rfl hab
  rw [List.length_filterMap_eq_countP] at hlen
  refine Nat.le_trans (List.countP_mono_left fun l _ hl => ?_) hlen
  rw [beq_iff_eq.mp hl]
  rfl

variable [DecidableEq C]

/-- Put one core halfway through a release, or back. -/
def Sys.park (s : Sys C) (c : C) (r : Option RawFrame) : C → Option RawFrame :=
  fun c' => if c' = c then r else s.halfway c'

/-- **One atomic step of one core.** -/
inductive Step : Sys C → Label C → Sys C → Prop
  /-- `OutOfBounds`: no entry is touched. -/
  | outOfBounds {s : Sys C} {c : C} {meth : Method} {f : RawFrame} (hidle : s.halfway c = none)
      (hf : s.table[f.number]? = none) : Step s ⟨c, meth, f, some false⟩ s
  | entry {s : Sys C} {c : C} {meth : Method} {f : RawFrame} {op : EntryOp} {e e' : RetypeEntry}
      {ok : Bool} (hidle : s.halfway c = none) (hf : s.table[f.number]? = some e)
      (hop : meth.entryOp = some op) (happly : op.apply e = .ok (ok, e')) :
      Step s ⟨c, meth, f, some ok⟩ { s with table := s.table.set f.number e' }
  | read {s : Sys C} {c : C} {f : RawFrame} {e : RetypeEntry} (hidle : s.halfway c = none)
      (hf : s.table[f.number]? = some e) :
      Step s ⟨c, .tryAsUntyped, f, some (e.get.1 == .untyped)⟩ s
  /-- The first compare-exchange of a release succeeds. -/
  | fromUser {s : Sys C} {c : C} {f : RawFrame} {e e' : RetypeEntry} (hidle : s.halfway c = none)
      (hf : s.table[f.number]? = some e)
      (happly : (EntryOp.retype .user .untyped 0 0).apply e = .ok (true, e')) :
      Step s ⟨c, .tryIntoUntyped, f, some true⟩ { s with table := s.table.set f.number e' }
  /-- It fails, and the call goes on. -/
  | fromUserFailed {s : Sys C} {c : C} {f : RawFrame} {e e' : RetypeEntry}
      (hidle : s.halfway c = none) (hf : s.table[f.number]? = some e)
      (happly : (EntryOp.retype .user .untyped 0 0).apply e = .ok (false, e')) :
      Step s ⟨c, .tryIntoUntyped, f, none⟩ ⟨s.table.set f.number e', s.park c (some f)⟩
  /-- The second compare-exchange. -/
  | fromKernel {s : Sys C} {c : C} {f : RawFrame} {e e' : RetypeEntry} {ok : Bool}
      (hhalf : s.halfway c = some f) (hf : s.table[f.number]? = some e)
      (happly : (EntryOp.retype .kernel .untyped 0 0).apply e = .ok (ok, e')) :
      Step s ⟨c, .tryIntoUntyped, f, some ok⟩ ⟨s.table.set f.number e', s.park c none⟩

/-! ## What one step does -/

section OneStep

variable {s t : Sys C} {l : Label C} {n : Nat}

/-- **Everything a step can do to the table**: nothing; change a count; claim; release. -/
theorem Step.effect (h : Step s l t) :
    (t.table = s.table ∧ l.claims = false ∧ l.releases = false) ∨
    ∃ e e', s.table[l.frame.number]? = some e ∧ t.table = s.table.set l.frame.number e' ∧
      ((e'.get.1 = e.get.1 ∧ l.claims = false ∧ l.releases = false) ∨
       (e.get = (.untyped, 0) ∧ (e'.get = (.user, 1) ∨ e'.get = (.kernel, 1)) ∧ l.claims = true) ∨
       ((e.get = (.user, 0) ∨ e.get = (.kernel, 0)) ∧ e'.get = (.untyped, 0) ∧
         l.claims = false ∧ l.releases = true)) := by
  cases h with
  | outOfBounds hidle hf => exact Or.inl ⟨rfl, by simp [Label.claims], by simp [Label.releases]⟩
  | read hidle hf => exact Or.inl ⟨rfl, by simp [Label.claims], by simp [Label.releases]⟩
  | @entry c meth f op e e' ok hidle hf hop happly =>
    refine Or.inr ⟨e, e', hf, rfl, ?_⟩
    rcases EntryOp.apply_cases happly with ⟨rfl, rfl⟩ | ⟨rfl, heff⟩
    · exact Or.inl ⟨rfl, by simp [Label.claims], by simp [Label.releases]⟩
    · cases meth with
      | tryIntoUser =>
        obtain rfl := Option.some.inj hop
        exact Or.inr (Or.inl ⟨heff.2.2.1, Or.inl heff.2.2.2, rfl⟩)
      | tryIntoKernel =>
        obtain rfl := Option.some.inj hop
        exact Or.inr (Or.inl ⟨heff.2.2.1, Or.inr heff.2.2.2, rfl⟩)
      | tryAsUser =>
        obtain rfl := Option.some.inj hop
        exact Or.inl ⟨by rw [heff.2.2, heff.1], rfl, rfl⟩
      | tryAsKernel =>
        obtain rfl := Option.some.inj hop
        exact Or.inl ⟨by rw [heff.2.2, heff.1], rfl, rfl⟩
      | increment =>
        obtain rfl := Option.some.inj hop
        exact Or.inl ⟨by rw [heff.2], rfl, rfl⟩
      | decrement =>
        obtain rfl := Option.some.inj hop
        exact Or.inl ⟨by rw [heff.2], rfl, rfl⟩
      | tryAsUntyped | tryIntoUntyped => exact absurd hop (by simp [Method.entryOp])
  | @fromUser c f e e' hidle hf happly =>
    refine Or.inr ⟨e, e', hf, rfl, Or.inr (Or.inr ?_)⟩
    rcases EntryOp.apply_cases happly with ⟨hfalse, _⟩ | ⟨_, heff⟩
    · exact absurd hfalse (by decide)
    · exact ⟨Or.inl heff.2.2.1, heff.2.2.2, rfl, rfl⟩
  | @fromUserFailed c f e e' hidle hf happly =>
    refine Or.inr ⟨e, e', hf, rfl, Or.inl ?_⟩
    rcases EntryOp.apply_cases happly with ⟨_, rfl⟩ | ⟨htrue, _⟩
    · exact ⟨rfl, rfl, rfl⟩
    · exact absurd htrue (by decide)
  | @fromKernel c f e e' ok hhalf hf happly =>
    refine Or.inr ⟨e, e', hf, rfl, ?_⟩
    rcases EntryOp.apply_cases happly with ⟨rfl, rfl⟩ | ⟨rfl, heff⟩
    · exact Or.inl ⟨rfl, rfl, rfl⟩
    · exact Or.inr (Or.inr ⟨Or.inr heff.2.2.1, heff.2.2.2, rfl, rfl⟩)

/-- A step leaves every other frame's entry. -/
theorem Step.frame (h : Step s l t) (hn : n ≠ l.frame.number) : t.table[n]? = s.table[n]? := by
  rcases h.effect with ⟨ht, _⟩ | ⟨e, e', _, ht, _⟩
  · rw [ht]
  · rw [ht, List.getElem?_set_ne hn.symm]

/-- **What a step is to a frame.** A claim finds it `Untyped` and leaves it typed; a release finds
it typed and unreferenced and leaves it `Untyped`; any other step keeps its state. -/
theorem Step.event_spec (h : Step s l t) (n : Nat) :
    (l.event n = none ∧ t.state n = s.state n) ∨
    (l.event n = some true ∧ s.state n = some .untyped ∧
      (t.state n = some .user ∨ t.state n = some .kernel)) ∨
    (l.event n = some false ∧ (∃ e, s.table[n]? = some e ∧
      (e.get = (.user, 0) ∨ e.get = (.kernel, 0))) ∧ t.state n = some .untyped) := by
  by_cases hn : n = l.frame.number
  · subst hn
    rcases h.effect with ⟨ht, hc, hr⟩ | ⟨e, e', he, ht, heff⟩
    · exact Or.inl ⟨Label.event_eq_none hc hr, by simp only [Sys.state, ht]⟩
    · have hlt := (List.getElem?_eq_some_iff.mp he).1
      have hs : s.state l.frame.number = some e.get.1 := by
        simp only [Sys.state, he, Option.map_some]
      have ht' : t.state l.frame.number = some e'.get.1 := by
        simp only [Sys.state, ht, List.getElem?_set_self hlt, Option.map_some]
      rcases heff with ⟨hstate, hc, hr⟩ | ⟨hg, hg', hc⟩ | ⟨hg, hg', hc, hr⟩
      · exact Or.inl ⟨Label.event_eq_none hc hr, by rw [hs, ht', hstate]⟩
      · refine Or.inr (Or.inl ⟨by simp [Label.event, hc], by rw [hs, hg], ?_⟩)
        rw [ht']
        exact hg'.imp (fun h => by rw [h]) (fun h => by rw [h])
      · exact Or.inr (Or.inr ⟨by simp [Label.event, hc, hr], ⟨e, he, hg⟩, by rw [ht', hg']⟩)
  · exact Or.inl ⟨Label.event_of_ne hn, by simp only [Sys.state, h.frame hn]⟩

end OneStep

/-! ## What a run does -/

/-- Entries of one state have the same two top bits. -/
theorem stateBits_of_get {e e' : RetypeEntry} (h : e'.get.1 = e.get.1) :
    e'.word >>> RetypeEntry.counterBits = e.word >>> RetypeEntry.counterBits := by
  have h₁ := RetypeEntry.valueInto_fst e.word
  have h₂ := RetypeEntry.valueInto_fst e'.word
  have hget : (RetypeEntry.valueInto e'.word).1 = (RetypeEntry.valueInto e.word).1 := h
  apply BitVec.eq_of_toNat_eq
  rw [BitVec.toNat_ushiftRight, BitVec.toNat_ushiftRight, Nat.shiftRight_eq_div_pow,
    Nat.shiftRight_eq_div_pow]
  show e'.word.toNat / 16384 = e.word.toNat / 16384
  rw [← h₁, ← h₂, hget]

/-- The law of one step, for every frame. -/
structure StepLaw (s : Sys C) (l : Label C) (t : Sys C) : Prop where
  /-- A state changes along an edge of the graph only. -/
  edge : ∀ n a b, s.state n = some a → t.state n = some b → a = b ∨ State.Edge a b = true
  /-- A move to `Untyped` happens at a zero count only. -/
  count_zero : ∀ n e, s.table[n]? = some e → e.get.1 ≠ .untyped → t.state n = some .untyped →
    e.get.2 = 0
  /-- A move to `Untyped` is a release that returns `Ok`, and nothing else. -/
  release : ∀ n, (s.state n ≠ some .untyped ∧ t.state n = some .untyped) ↔ l.event n = some false
  /-- Counting leaves the two state bits of the word: no carry and no borrow. -/
  counting : l.method ∈ [.tryAsUser, .tryAsKernel, .increment, .decrement] →
    ∀ (n : Nat) (e e' : RetypeEntry), s.table[n]? = some e → t.table[n]? = some e' →
      e'.word >>> RetypeEntry.counterBits = e.word >>> RetypeEntry.counterBits
  /-- The other frames' entries stay. -/
  frame : ∀ n, n ≠ l.frame.number → t.table[n]? = s.table[n]?

/-- The law of a run, for every frame. -/
structure RunLaw (s : Sys C) (ls : List (Label C)) (t : Sys C) : Prop where
  steps : ∀ pre l post u v, ls = pre ++ l :: post → Run Step s pre u → Step u l v →
    Run Step v post t → StepLaw u l v
  unavailable : ∀ n, s.state n = some .unavailable → t.state n = some .unavailable
  /-- A typed frame takes another type only through `Untyped`. -/
  through_untyped : ∀ n a b, s.state n = some a → t.state n = some b → a ≠ b → a ≠ .untyped →
    ∃ pre post u, ls = pre ++ post ∧ Run Step s pre u ∧ Run Step u post t ∧
      u.state n = some .untyped
  /-- Claims and releases that return `Ok` alternate. -/
  alternate : ∀ n, List.IsChain (· ≠ ·) (ls.filterMap (Label.event n))
  /-- Without a release, at most one claim returns `Ok`. -/
  one_claim : ∀ n, (∀ l ∈ ls, l.event n ≠ some false) →
    ls.countP (fun l => l.event n == some true) ≤ 1

section Runs

variable {s t : Sys C} {l : Label C} {ls : List (Label C)} {n : Nat}

theorem Step.law (h : Step s l t) : StepLaw s l t where
  edge n a b ha hb := by
    rcases h.event_spec n with ⟨_, hst⟩ | ⟨_, hs, ht⟩ | ⟨_, ⟨e, he, hg⟩, ht⟩
    · rw [ha, hb] at hst
      exact Or.inl (Option.some.inj hst).symm
    · rw [ha] at hs
      obtain rfl := Option.some.inj hs
      rw [hb] at ht
      rcases ht with ht | ht <;> obtain rfl := Option.some.inj ht <;> exact Or.inr rfl
    · rw [hb] at ht
      obtain rfl := Option.some.inj ht
      rw [Sys.state_of_entry he] at ha
      obtain rfl := Option.some.inj ha
      rcases hg with hg | hg <;> rw [hg] <;> exact Or.inr rfl
  count_zero n e he hne ht := by
    rcases h.event_spec n with ⟨_, hst⟩ | ⟨_, hs, _⟩ | ⟨_, ⟨e', he', hg⟩, _⟩
    · rw [ht, Sys.state_of_entry he] at hst
      exact absurd (Option.some.inj hst).symm hne
    · rw [Sys.state_of_entry he] at hs
      exact absurd (Option.some.inj hs) hne
    · obtain rfl : e = e' := Option.some.inj (he.symm.trans he')
      rcases hg with hg | hg <;> rw [hg]
  release n := by
    rcases h.event_spec n with ⟨hev, hst⟩ | ⟨hev, hs, ht⟩ | ⟨hev, ⟨e, he, hg⟩, ht⟩
    · simp only [hev, hst, reduceCtorEq, iff_false]
      exact fun hc => hc.1 hc.2
    · simp only [hev, hs, ne_eq, not_true_eq_false, false_and, Option.some.injEq,
        Bool.true_eq_false]
    · simp only [hev, ht, Sys.state_of_entry he, and_true, iff_true]
      rcases hg with hg | hg <;> simp [hg]
  counting hl n e e' he he' := by
    refine stateBits_of_get ?_
    have hev : l.event n = none := by
      refine Label.event_eq_none ?_ ?_ <;>
        simp only [List.mem_cons, List.not_mem_nil, or_false] at hl <;>
        rcases hl with hl | hl | hl | hl <;> simp [Label.claims, Label.releases, hl]
    rcases h.event_spec n with ⟨_, hst⟩ | ⟨hev', _⟩ | ⟨hev', _⟩
    · rw [Sys.state_of_entry he, Sys.state_of_entry he'] at hst
      exact Option.some.inj hst
    · rw [hev] at hev'; exact absurd hev' (by decide)
    · rw [hev] at hev'; exact absurd hev' (by decide)
  frame n hn := h.frame hn

/-- An unavailable frame stays so. -/
theorem Step.unavailable (h : Step s l t) (hs : s.state n = some .unavailable) :
    t.state n = some .unavailable := by
  rcases h.event_spec n with ⟨_, hst⟩ | ⟨_, hs', _⟩ | ⟨_, ⟨e, he, hg⟩, _⟩
  · rw [hst, hs]
  · rw [hs] at hs'; exact absurd hs' (by decide)
  · rw [Sys.state_of_entry he] at hs
    rcases hg with hg | hg <;> rw [hg] at hs <;> exact absurd hs (by decide)

theorem Run.through_untyped (r : Run Step s ls t) {a b : State} (ha : s.state n = some a)
    (hb : t.state n = some b) (hab : a ≠ b) (hu : a ≠ .untyped) :
    ∃ pre post u, ls = pre ++ post ∧ Run Step s pre u ∧ Run Step u post t ∧
      u.state n = some .untyped := by
  induction r with
  | nil s =>
    rw [ha] at hb
    exact absurd (Option.some.inj hb) hab
  | @cons s v t l ls hstep r ih =>
    rcases hstep.event_spec n with ⟨_, hst⟩ | ⟨_, hs, _⟩ | ⟨_, _, ht⟩
    · -- the state is still `a`, and changes later
      obtain ⟨pre, post, u, rfl, h1, h2, hun⟩ := ih (hst.trans ha) hb
      exact ⟨l :: pre, post, u, rfl, Run.cons hstep h1, h2, hun⟩
    · rw [ha] at hs
      exact absurd (Option.some.inj hs) hu
    · exact ⟨[l], ls, v, rfl, Run.cons hstep (Run.nil v), r, ht⟩

/-- **Claims and releases of a frame alternate**, and the first one tells how the frame started:
a claim found it `Untyped`, a release did not. -/
theorem alternates (r : Run Step s ls t) (n : Nat) :
    List.IsChain (· ≠ ·) (ls.filterMap (Label.event n)) ∧
      ∀ b ∈ (ls.filterMap (Label.event n)).head?, (b = true ↔ s.state n = some .untyped) := by
  induction r with
  | nil s => simp
  | @cons s v t l ls hstep r ih =>
    obtain ⟨hchain, hhead⟩ := ih
    rcases hstep.event_spec n with ⟨hev, hst⟩ | ⟨hev, hs, ht⟩ | ⟨hev, ⟨e, he, hg⟩, ht⟩
    · rw [List.filterMap_cons_none hev, ← hst]
      exact ⟨hchain, hhead⟩
    · rw [List.filterMap_cons_some hev]
      refine ⟨List.isChain_cons.mpr ⟨fun b hb => ?_, hchain⟩, ?_⟩
      · -- the frame is typed now, so the next event is no claim
        have hnot : v.state n ≠ some .untyped := by
          rcases ht with ht | ht <;> rw [ht] <;> decide
        intro hbt
        exact hnot ((hhead b hb).mp hbt.symm)
      · simp [hs]
    · rw [List.filterMap_cons_some hev]
      refine ⟨List.isChain_cons.mpr ⟨fun b hb => ?_, hchain⟩, ?_⟩
      · rw [(hhead b hb).mpr ht]
        decide
      · simp only [List.head?_cons, Option.mem_def, Option.some.injEq, forall_eq',
          Bool.false_eq_true, false_iff, Sys.state_of_entry he]
        rcases hg with hg | hg <;> simp [hg]

end Runs

/-- **Retyping follows the state graph, whatever the cores do.** -/
theorem retyping_follows_graph {s t : Sys C} {ls : List (Label C)} (r : Run Step s ls t) :
    RunLaw s ls t where
  steps _ _ _ _ _ _ _ h _ := h.law
  unavailable n hs := r.invariant (fun u => u.state n = some .unavailable)
    (fun _ _ _ hu h => h.unavailable hu) hs
  through_untyped _ _ _ ha hb hab hu := Run.through_untyped r ha hb hab hu
  alternate n := (alternates r n).1
  one_claim n hno := one_claim_of_alternate (alternates r n).1 hno

/-- Two cores race for frame 1: the first claims it for the kernel, the second fails to claim it
for a user, drops the first one's reference and releases the frame, between whose two
compare-exchanges the first core fails to claim it again. -/
theorem retyping_follows_graph_race : ∃ t : Sys Bool,
    RunLaw ⟨[RetypeEntry.unavailable, RetypeEntry.untyped], fun _ => none⟩
      [⟨true, .tryIntoKernel, ⟨⟨0x1000, by decide⟩⟩, some true⟩,
       ⟨false, .tryIntoUser, ⟨⟨0x1000, by decide⟩⟩, some false⟩,
       ⟨false, .decrement, ⟨⟨0x1000, by decide⟩⟩, some true⟩,
       ⟨false, .tryIntoUntyped, ⟨⟨0x1000, by decide⟩⟩, none⟩,
       ⟨true, .tryIntoUser, ⟨⟨0x1000, by decide⟩⟩, some false⟩,
       ⟨false, .tryIntoUntyped, ⟨⟨0x1000, by decide⟩⟩, some true⟩] t :=
  ⟨_, retyping_follows_graph
    (Run.cons (.entry rfl rfl rfl (by rfl)) <|
      Run.cons (.entry rfl rfl rfl (by rfl)) <|
      Run.cons (.entry rfl rfl rfl (by rfl)) <|
      Run.cons (.fromUserFailed rfl rfl (by rfl)) <|
      Run.cons (.entry rfl rfl rfl (by rfl)) <|
      Run.cons (.fromKernel rfl rfl (by rfl)) <| Run.nil _)⟩

/-! ## A call taken alone -/

/-- The method as one core runs it, with `true` for `Ok`. -/
def Method.call (env : Env) (f : RawFrame) : Method → KM Bool
  | .tryIntoUser => return isOk (← f.tryIntoUser)
  | .tryIntoKernel => return isOk (← f.tryIntoKernel)
  | .tryAsUser => return isOk (← f.tryAsUser env)
  | .tryAsKernel => return isOk (← f.tryAsKernel env)
  | .tryAsUntyped => return isOk (← f.tryAsUntyped)
  | .tryIntoUntyped => return isOk (← f.tryIntoUntyped env)
  | .increment => return ((← stepEntry f fun e => .ok e.increment).map isOk).getD false
  | .decrement => return ((← stepEntry f fun e => .ok e.decrement).map isOk).getD false

section Alone

variable {env : Env} {f : RawFrame} {m m' : Machine}

theorem stepEntry_eq_ok {ρ : Type} {step : RetypeEntry → Except Panic (ρ × RetypeEntry)}
    {r : Option ρ} (h : stepEntry f step m = .ok r m') :
    (m.retypeMap[f.number]? = none ∧ r = none ∧ m' = m) ∨
      ∃ e x e', m.retypeMap[f.number]? = some e ∧ step e = .ok (x, e') ∧ r = some x ∧
        m' = m.setEntry f.number e' := by
  cases he : m.retypeMap[f.number]? with
  | none =>
    rw [stepEntry_of_none step he] at h
    injection h with h1 h2
    exact Or.inl ⟨rfl, h1.symm, h2.symm⟩
  | some e =>
    cases hs : step e with
    | error p =>
      rw [stepEntry_of_error step he hs] at h
      cases h
    | ok x =>
      rw [stepEntry_of_some step he hs] at h
      injection h with h1 h2
      exact Or.inr ⟨e, x.1, x.2, rfl, hs, h1.symm, h2.symm⟩

theorem tryInto_eq_ok {st : State} {r : Except RetypeError RawFrame}
    (h : RawFrame.tryInto st f m = .ok r m') :
    ∃ o, stepEntry f (fun e => e.retype .untyped st 0 1) m = .ok o m' ∧
      isOk r = (o.map isOk).getD false := by
  obtain ⟨o, m₁, hstep, hrest⟩ := bind_eq_ok h
  match o with
  | none | some (.ok _) | some (.error _) =>
    injection hrest with h1 h2
    subst h1 h2
    exact ⟨_, hstep, rfl⟩

theorem debugAssert_eq_ok {c : Bool} {text : String} {u : Unit}
    (h : debugAssert env c text m = .ok u m') : m' = m :=
  (assert_eq_ok h).2

theorem tryAs_eq_ok {st : State} {r : Except AsTypeError RawFrame}
    (h : RawFrame.tryAs env st f m = .ok r m') :
    ∃ o, stepEntry f (fun e => .ok (e.getAsAndIncrement st)) m = .ok o m' ∧
      isOk r = (o.map isOk).getD false := by
  obtain ⟨o, m₁, hstep, hrest⟩ := bind_eq_ok h
  match o with
  | none | some (.ok _) =>
    injection hrest with h1 h2
    subst h1 h2
    exact ⟨_, hstep, rfl⟩
  | some (.error (state, value)) =>
    by_cases hs : state = st
    · simp only [ne_eq, hs, not_true_eq_false, if_false] at hrest
      obtain ⟨_, m₂, hassert, hrest⟩ := bind_eq_ok hrest
      injection hrest with h1 h2
      obtain rfl := debugAssert_eq_ok hassert
      subst h1 h2
      exact ⟨_, hstep, rfl⟩
    · simp only [ne_eq, hs, not_false_eq_true, if_true] at hrest
      injection hrest with h1 h2
      subst h1 h2
      exact ⟨_, hstep, rfl⟩

theorem tryIntoUntypedFrom_eq_ok {st : State} {r : Except RetypeError RawFrame}
    (h : RawFrame.tryIntoUntypedFrom env st f m = .ok r m') :
    ∃ o, stepEntry f (fun e => e.retype st .untyped 0 0) m = .ok o m' ∧
      isOk r = (o.map isOk).getD false := by
  obtain ⟨_, m₀, hassert, hbody⟩ := bind_eq_ok h
  obtain ⟨_, hm₀⟩ := assert_eq_ok hassert
  rw [hm₀] at hbody
  obtain ⟨o, m₁, hstep, hrest⟩ := bind_eq_ok hbody
  match o with
  | none | some (.ok _) =>
    injection hrest with h1 h2
    subst h1 h2
    exact ⟨_, hstep, rfl⟩
  | some (.error (state, refs)) =>
    have hsame : m₁ = m' ∧ isOk r = false := by
      by_cases hu : state = .unavailable
      · simp only [hu, if_true] at hrest
        obtain ⟨_, m₂, ha, hrest⟩ := bind_eq_ok hrest
        injection hrest with h1 h2
        rw [← h2, debugAssert_eq_ok ha, ← h1]
        exact ⟨rfl, rfl⟩
      · simp only [hu, if_false] at hrest
        by_cases hf : state = st
        · simp only [hf, if_true] at hrest
          obtain ⟨_, m₂, ha, hrest⟩ := bind_eq_ok hrest
          injection hrest with h1 h2
          rw [← h2, debugAssert_eq_ok ha, ← h1]
          exact ⟨rfl, rfl⟩
        · simp only [hf, if_false] at hrest
          injection hrest with h1 h2
          rw [← h2, ← h1]
          exact ⟨rfl, rfl⟩
    obtain ⟨rfl, hr⟩ := hsame
    exact ⟨_, hstep, hr⟩

/-- The table of a machine, with the cores' positions. -/
def sysOf (m : Machine) (halfway : C → Option RawFrame) : Sys C := ⟨m.retypeMap, halfway⟩

/-- A run of one call: its steps belong to it, and the last one returns its result. -/
def CallRun (s : Sys C) (c : C) (meth : Method) (f : RawFrame) (ok : Bool) (t : Sys C) : Prop :=
  ∃ ls last, Run Step s (ls ++ [last]) t ∧ last.returned = some ok ∧
    ∀ l ∈ ls ++ [last], l.core = c ∧ l.method = meth ∧ l.frame = f

variable {halfway : C → Option RawFrame} {c : C}

theorem CallRun.one {s t : Sys C} {meth : Method} {ok : Bool}
    (h : Step s ⟨c, meth, f, some ok⟩ t) : CallRun s c meth f ok t :=
  ⟨[], _, Run.cons h (Run.nil t), rfl, by simp⟩

/-- A method that is one step on the entry. -/
theorem CallRun.of_stepEntry {ρ ε : Type} {meth : Method} {op : EntryOp}
    {step : RetypeEntry → Except Panic (Except ε ρ × RetypeEntry)} {o : Option (Except ε ρ)}
    (hidle : halfway c = none) (hop : meth.entryOp = some op)
    (hstep : ∀ e x e', step e = .ok (x, e') → op.apply e = .ok (isOk x, e'))
    (h : stepEntry f step m = .ok o m') :
    CallRun (sysOf m halfway) c meth f ((o.map isOk).getD false) (sysOf m' halfway) := by
  rcases stepEntry_eq_ok h with ⟨he, rfl, rfl⟩ | ⟨e, x, e', he, hs, rfl, rfl⟩
  · exact CallRun.one (Step.outOfBounds hidle he)
  · exact CallRun.one (Step.entry hidle he hop (hstep e x e' hs))

/-- A release: the first compare-exchange returns, or fails and the second one returns. -/
theorem CallRun.release (hidle : halfway c = none) {r : Except RetypeError RawFrame}
    (h : f.tryIntoUntyped env m = .ok r m') :
    CallRun (sysOf m halfway) c .tryIntoUntyped f (isOk r) (sysOf m' halfway) := by
  obtain ⟨r₁, m₁, h₁, hrest⟩ := bind_eq_ok h
  obtain ⟨o₁, hstep₁, hok₁⟩ := tryIntoUntypedFrom_eq_ok h₁
  have happly : ∀ (st : State) (e : RetypeEntry) (x : Except (State × Nat) Unit) (e' : RetypeEntry),
      e.retype st .untyped 0 0 = .ok (x, e') →
      (EntryOp.retype st .untyped 0 0).apply e = .ok (isOk x, e') := by
    intro st e x e' hr
    simp only [EntryOp.apply, hr, Except.map]
  rcases stepEntry_eq_ok hstep₁ with ⟨he, rfl, rfl⟩ | ⟨e, x, e₁, he, hs, rfl, rfl⟩
  · -- out of bounds, and so is the second call
    obtain ⟨err, rfl⟩ := isOk_eq_false hok₁
    obtain ⟨o₂, hstep₂, hok₂⟩ := tryIntoUntypedFrom_eq_ok hrest
    rw [stepEntry_of_none _ he] at hstep₂
    injection hstep₂ with h1 h2
    subst h1 h2
    rw [hok₂]
    exact CallRun.one (Step.outOfBounds hidle he)
  · cases x with
    | ok u =>
      obtain ⟨a, rfl⟩ := isOk_eq_true hok₁
      injection hrest with h1 h2
      subst h1 h2
      exact CallRun.one (Step.fromUser hidle he (happly _ e _ e₁ hs))
    | error pair =>
      obtain ⟨err, rfl⟩ := isOk_eq_false hok₁
      obtain ⟨o₂, hstep₂, hok₂⟩ := tryIntoUntypedFrom_eq_ok hrest
      rcases stepEntry_eq_ok hstep₂ with ⟨he₂, _⟩ | ⟨e₂, x₂, e₃, he₂, hs₂, rfl, rfl⟩
      · rw [Machine.getElem?_setEntry_self e₁ he] at he₂
        exact absurd he₂ (by simp)
      · have hfirst : Step (sysOf m halfway) ⟨c, .tryIntoUntyped, f, none⟩ _ :=
          Step.fromUserFailed hidle he (happly _ e _ e₁ hs)
        have hparked : (⟨m.retypeMap.set f.number e₁, (sysOf m halfway).park c (some f)⟩ :
            Sys C).halfway c = some f := if_pos rfl
        have hsecond := Step.fromKernel hparked he₂ (happly _ e₂ _ e₃ hs₂)
        have hback : ∀ table, (⟨table, Sys.park ⟨m.retypeMap.set f.number e₁,
            (sysOf m halfway).park c (some f)⟩ c none⟩ : Sys C) = ⟨table, halfway⟩ := by
          intro table
          congr 1
          funext c'
          by_cases hc : c' = c
          · rw [hc, hidle]; exact if_pos rfl
          · exact (if_neg hc).trans (if_neg hc)
        rw [hback] at hsecond
        refine ⟨[⟨c, .tryIntoUntyped, f, none⟩], ⟨c, .tryIntoUntyped, f, some (isOk x₂)⟩,
          Run.cons hfirst (Run.cons hsecond (Run.nil _)), by rw [hok₂]; rfl, by simp⟩

theorem map_eq_ok {α β : Type} {x : KM α} {g : α → β} {b : β}
    (h : (x >>= fun a => pure (g a)) m = .ok b m') : ∃ a, x m = .ok a m' ∧ g a = b := by
  obtain ⟨a, m₁, hx, hret⟩ := bind_eq_ok h
  injection hret with h1 h2
  subst h2
  exact ⟨a, hx, h1⟩

theorem tryAsUntyped_eq_ok {r : Except AsTypeError RawFrame} (h : f.tryAsUntyped m = .ok r m') :
    m' = m ∧ isOk r = ((m.retypeMap[f.number]?.map fun e => e.get.1 == .untyped).getD false) := by
  obtain ⟨m₁, m₂, hget, hrest⟩ := bind_eq_ok h
  injection hget with h1 h2
  subst h1 h2
  cases he : m.retypeMap[f.number]? with
  | none =>
    rw [he] at hrest
    injection hrest with h1 h2
    exact ⟨h2.symm, by rw [← h1]; rfl⟩
  | some e =>
    rw [he] at hrest
    by_cases hu : e.get.1 = .untyped
    · simp only [ne_eq, hu, not_true_eq_false, if_false] at hrest
      injection hrest with h1 h2
      exact ⟨h2.symm, by rw [← h1]; simp [isOk, hu]⟩
    · simp only [ne_eq, hu, not_false_eq_true, if_true] at hrest
      injection hrest with h1 h2
      exact ⟨h2.symm, by rw [← h1]; simp [isOk, hu]⟩

/-- **A call on one core, taken alone, is a run of the interleaving system.** -/
theorem Method.call_run (meth : Method) {ok : Bool} (hidle : halfway c = none)
    (h : meth.call env f m = .ok ok m') :
    CallRun (sysOf m halfway) c meth f ok (sysOf m' halfway) := by
  have hclaim : ∀ (st : State) (e : RetypeEntry) (x : Except (State × Nat) Unit) e',
      e.retype .untyped st 0 1 = .ok (x, e') →
      (EntryOp.retype .untyped st 0 1).apply e = .ok (isOk x, e') := by
    intro st e x e' hx
    simp only [EntryOp.apply, hx, Except.map]
  have hacquire : ∀ (st : State) (e : RetypeEntry) (x : Except (State × Nat) Unit) e',
      Except.ok (e.getAsAndIncrement st) = (.ok (x, e') : Except Panic _) →
      (EntryOp.getAsAndIncrement st).apply e = .ok (isOk x, e') := by
    intro st e x e' hx
    simp only [EntryOp.apply, Except.ok.inj hx]
  cases meth with
  | tryIntoUser =>
    obtain ⟨r, hcall, rfl⟩ := map_eq_ok h
    obtain ⟨r', hinto, rfl⟩ := map_eq_ok hcall
    obtain ⟨o, hstep, hok⟩ := tryInto_eq_ok hinto
    rw [isOk_map, hok]
    exact CallRun.of_stepEntry hidle rfl (hclaim .user) hstep
  | tryIntoKernel =>
    obtain ⟨r, hcall, rfl⟩ := map_eq_ok h
    obtain ⟨r', hinto, rfl⟩ := map_eq_ok hcall
    obtain ⟨o, hstep, hok⟩ := tryInto_eq_ok hinto
    rw [isOk_map, hok]
    exact CallRun.of_stepEntry hidle rfl (hclaim .kernel) hstep
  | tryAsUser =>
    obtain ⟨r, hcall, rfl⟩ := map_eq_ok h
    obtain ⟨r', has, rfl⟩ := map_eq_ok hcall
    obtain ⟨o, hstep, hok⟩ := tryAs_eq_ok has
    rw [isOk_map, hok]
    exact CallRun.of_stepEntry hidle rfl (hacquire .user) hstep
  | tryAsKernel =>
    obtain ⟨r, hcall, rfl⟩ := map_eq_ok h
    obtain ⟨r', has, rfl⟩ := map_eq_ok hcall
    obtain ⟨o, hstep, hok⟩ := tryAs_eq_ok has
    rw [isOk_map, hok]
    exact CallRun.of_stepEntry hidle rfl (hacquire .kernel) hstep
  | tryAsUntyped =>
    obtain ⟨r, hcall, rfl⟩ := map_eq_ok h
    obtain ⟨rfl, hok⟩ := tryAsUntyped_eq_ok hcall
    rw [hok]
    cases he : m'.retypeMap[f.number]? with
    | none => exact CallRun.one (Step.outOfBounds hidle he)
    | some e => exact CallRun.one (Step.read hidle he)
  | tryIntoUntyped =>
    obtain ⟨r, hcall, rfl⟩ := map_eq_ok h
    exact CallRun.release hidle hcall
  | increment =>
    obtain ⟨o, hcall, rfl⟩ := map_eq_ok h
    refine CallRun.of_stepEntry hidle rfl (fun e x e' hx => ?_) hcall
    simp only [EntryOp.apply, Except.ok.inj hx]
  | decrement =>
    obtain ⟨o, hcall, rfl⟩ := map_eq_ok h
    refine CallRun.of_stepEntry hidle rfl (fun e x e' hx => ?_) hcall
    simp only [EntryOp.apply, Except.ok.inj hx]

end Alone

end Harmony
