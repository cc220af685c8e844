import Harmony.Lib.Interleaving
import Mathlib.Data.List.Nodup

/-!
# Calls that take effect at one moment

A call of a shared object takes several steps, and other calls take theirs in between. It is
linearizable if one of its own steps does all that the call does and its other steps do nothing that
shows: the system then is where it gets to when the calls are made one after another, in the order
in which they took that step.

* `Linear`: the calls that have returned are those of one order, and each returned what it returns
  when they are made in that order. `Linear.step` is the rule for one step, `Linear.run` for a run:
  the order only grows at its end, so a call that returns before another one starts comes first.
  `observed` is what the calls meet in that order.
* `AtomicOp`: the methods of an atomic word. `fetch_update` is a load and a loop around a weak
  compare-exchange, which may also fail where the word is the expected one; `AtomicOp.commits` says
  that it nevertheless takes effect at one moment, and `AtomicCall.accesses_le` that it loses the
  exchange only to calls that take effect after it has started.
-/

namespace Harmony.Lib

/-! ### One order -/

section Linear

variable {C M P A R : Type}

/-- The memory after the calls of a list, one after another. -/
def serially (spec : C → M → M × R) (m : M) (order : List C) : M :=
  order.foldl (fun m c => (spec c m).1) m

/-- What `see` says of each call and the memory it meets, when the calls of a list are made one
after another. -/
def observed {β : Type} (spec : C → M → M × R) (see : C → M → β) (m : M) : List C → List β
  | [] => []
  | c :: cs => see c m :: observed spec see (spec c m).1 cs

/-- What one step of a call may do: nothing that shows, or all that the call does. -/
inductive Commits (spec : M → M × R) (result : P → Option R) (m m' : M) (p' : P) : Prop
  | silent (hmem : m' = m) (hpc : result p' = none)
  | commit (hmem : m' = (spec m).1) (hpc : result p' = some (spec m).2)

/-- The calls that have returned are those of `order`. The memory is the one after them, and each
returned what it returns at its place. -/
structure Linear (spec : C → M → M × R) (result : C → P → Option R) (m₀ : M) (order : List C)
    (s : Calls C M P) : Prop where
  nodup : order.Nodup
  mem : s.mem = serially spec m₀ order
  pending : ∀ c, c ∉ order → result c (s.pc c) = none
  returned : ∀ pre c post, order = pre ++ c :: post →
    result c (s.pc c) = some (spec c (serially spec m₀ pre)).2

variable {spec : C → M → M × R} {result : C → P → Option R} {m₀ : M} {order : List C}
  {s t : Calls C M P} {c : C} {a : A}

theorem serially_concat : serially spec m₀ (order ++ [c]) = (spec c (serially spec m₀ order)).1 :=
  List.foldl_concat ..

/-- The last call meets the memory that those before it leave. -/
theorem observed_concat {β : Type} {see : C → M → β} : observed spec see m₀ (order ++ [c]) =
    observed spec see m₀ order ++ [see c (serially spec m₀ order)] := by
  induction order generalizing m₀ with
  | nil => rfl
  | cons d ds ih => exact congrArg (see d m₀ :: ·) ih

/-- Before the first step. -/
theorem Linear.start {p : P} (h : ∀ c, result c p = none) :
    Linear spec result m₀ [] ⟨m₀, fun _ => p⟩ where
  nodup := List.nodup_nil
  mem := rfl
  pending c _ := h c
  returned pre c post hsplit := by simp at hsplit

/-- The calls of the order are those that have returned. -/
theorem Linear.mem_iff (h : Linear spec result m₀ order s) :
    c ∈ order ↔ (result c (s.pc c)).isSome := by
  constructor
  · intro hc
    obtain ⟨pre, post, hsplit⟩ := List.append_of_mem hc
    rw [h.returned pre c post hsplit]
    rfl
  · intro hsome
    by_contra hc
    rw [h.pending c hc] at hsome
    exact absurd hsome (by simp)

/-- A step that shows nothing. -/
theorem Linear.silent [DecidableEq C] {code : Code C M P A} (h : Linear spec result m₀ order s)
    (hs : Calls.Step code s (c, a) t) (hopen : result c (s.pc c) = none) (hmem : t.mem = s.mem)
    (hpc : result c (t.pc c) = none) : Linear spec result m₀ order t := by
  have hsame : ∀ d, result d (t.pc d) = result d (s.pc d) :=
    hs.forall_pc (fun d p => result d p = result d (s.pc d)) (hpc.trans hopen.symm) fun _ _ => rfl
  constructor
  · exact h.nodup
  · exact hmem.trans h.mem
  · intro d hd
    rw [hsame]
    exact h.pending d hd
  · intro pre d post hsplit
    rw [hsame]
    exact h.returned pre d post hsplit

/-- The step in which the call takes effect puts it last in the order. -/
theorem Linear.commit [DecidableEq C] {code : Code C M P A} (h : Linear spec result m₀ order s)
    (hs : Calls.Step code s (c, a) t) (hopen : result c (s.pc c) = none)
    (hmem : t.mem = (spec c s.mem).1) (hpc : result c (t.pc c) = some (spec c s.mem).2) :
    Linear spec result m₀ (order ++ [c]) t := by
  have hnew : c ∉ order := by
    intro hc
    rw [h.mem_iff, hopen] at hc
    exact absurd hc (by simp)
  constructor
  · exact List.nodup_append.mpr ⟨h.nodup, List.nodup_singleton c, by
      intro d hd e he heq
      rw [List.mem_singleton.mp he] at heq
      exact hnew (heq ▸ hd)⟩
  · rw [hmem, h.mem, serially_concat]
  · intro d hd
    rw [List.mem_append, List.mem_singleton, not_or] at hd
    rw [hs.other hd.2]
    exact h.pending d hd.1
  · intro pre d post hsplit
    -- the call at this place is the new one at the end, or one of those before it
    rcases List.eq_nil_or_concat post with rfl | ⟨post, e, rfl⟩
    · obtain ⟨rfl, hcd⟩ := List.append_inj' hsplit rfl
      obtain rfl := List.singleton_inj.mp hcd
      rw [hpc, h.mem]
    · rw [List.concat_eq_append, ← List.cons_append, ← List.append_assoc] at hsplit
      have hold := (List.append_inj' hsplit rfl).1
      have hne : d ≠ c := by
        rintro rfl
        exact hnew (hold ▸ by simp)
      rw [hs.other hne]
      exact h.returned pre d post hold

/-- **The rule for one step.** -/
theorem Linear.step [DecidableEq C] {code : Code C M P A} (h : Linear spec result m₀ order s)
    (hs : Calls.Step code s (c, a) t) (hopen : result c (s.pc c) = none)
    (hc : Commits (spec c) (result c) s.mem t.mem (t.pc c)) :
    ∃ more, Linear spec result m₀ (order ++ more) t := by
  cases hc with
  | silent hmem hpc => exact ⟨[], (List.append_nil order).symm ▸ h.silent hs hopen hmem hpc⟩
  | commit hmem hpc => exact ⟨[c], h.commit hs hopen hmem hpc⟩

/-- **The rule for a run**: the order only grows at its end. -/
theorem Linear.run [DecidableEq C] {code : Code C M P A} {ls : List (C × A)}
    (hcode : ∀ c m p a m' p', code c m p a = some (m', p') →
      result c p = none ∧ Commits (spec c) (result c) m m' p')
    (r : Run (Calls.Step code) s ls t) (h : Linear spec result m₀ order s) :
    ∃ more, Linear spec result m₀ (order ++ more) t := by
  induction r generalizing order with
  | nil => exact ⟨[], (List.append_nil order).symm ▸ h⟩
  | @cons s u t l ls hs _ ih =>
    obtain ⟨hopen, hc⟩ := hcode l.1 _ _ l.2 _ _ hs.own
    obtain ⟨more, hu⟩ := h.step hs hopen hc
    obtain ⟨rest, ht⟩ := ih hu
    exact ⟨more ++ rest, List.append_assoc order more rest ▸ ht⟩

end Linear

/-! ### An atomic word -/

section Atomic

variable {W : Type} [DecidableEq W]

/-- A method of an atomic word. -/
inductive AtomicOp (W : Type) where
  | load
  | swap (new : W)
  | compareExchange (current new : W)
  | fetchUpdate (f : W → Option W)

/-- What the method does at one moment: the word after it, and its result. -/
def AtomicOp.atomic : AtomicOp W → W → W × Except W W
  | .load, w => (w, .ok w)
  | .swap new, w => (new, .ok w)
  | .compareExchange current new, w => Lib.compareExchange w current new
  | .fetchUpdate f, w =>
    match f w with
    | some new => (new, .ok w)
    | none => (w, .error w)

/-- Where a call of a method is. -/
inductive AtomicPc (W : Type) where
  | start
  /-- In the loop of `fetch_update`: `prev` was read, and an update for it is there. -/
  | retry (prev : W)
  | done (r : Except W W)

/-- Whether a weak compare-exchange that finds the expected word fails all the same. -/
inductive AtomicAct where
  | go
  | spurious
  deriving DecidableEq

/-- What a call has returned. -/
def AtomicPc.result : AtomicPc W → Option (Except W W)
  | .done r => some r
  | _ => none

/-- `fetch_update` has read `w`: it leaves if there is no update, and else goes on to exchange. -/
def AtomicPc.looked (f : W → Option W) (w : W) : AtomicPc W :=
  match f w with
  | some _ => .retry w
  | none => .done (.error w)

/-- One step of a method. -/
def AtomicOp.code (op : AtomicOp W) (w : W) : AtomicPc W → AtomicAct → Option (W × AtomicPc W)
  | .start, .go =>
    match op with
    | .fetchUpdate f => some (w, .looked f w)
    | op => some ((op.atomic w).1, .done (op.atomic w).2)
  | .start, .spurious => none
  | .retry prev, act =>
    match op with
    | .fetchUpdate f =>
      match f prev, act with
      | some new, .go => if w = prev then some (new, .done (.ok prev)) else some (w, .looked f w)
      | some _, .spurious => some (w, .looked f w)
      | none, _ => none
    | _ => none
  | .done _, _ => none

variable {op : AtomicOp W} {w w' : W} {p p' : AtomicPc W} {act : AtomicAct}

/-- Reading a word shows nothing if there is an update for it, and is all that `fetch_update` does
if there is none. -/
theorem AtomicPc.looked_commits (f : W → Option W) (w : W) :
    Commits (AtomicOp.fetchUpdate f).atomic AtomicPc.result w w (looked f w) := by
  cases hf : f w with
  | some new => exact .silent rfl (by simp [looked, hf, result])
  | none =>
    exact .commit (by simp [AtomicOp.atomic, hf])
      (by simp [looked, hf, result, AtomicOp.atomic])

/-- What a step of a method is. -/
inductive AtomicOp.Moves : AtomicOp W → W → AtomicPc W → AtomicAct → W → AtomicPc W → Prop
  /-- `fetch_update` loads the word. -/
  | load (f : W → Option W) (w : W) : Moves (.fetchUpdate f) w .start .go w (.looked f w)
  /-- Another method makes its one access. -/
  | access (op : AtomicOp W) (w : W) : Moves op w .start .go (op.atomic w).1 (.done (op.atomic w).2)
  /-- The exchange of `fetch_update` fails and returns the word. -/
  | fail (f : W → Option W) (w prev : W) (act : AtomicAct) (hact : act = .go → w ≠ prev) :
      Moves (.fetchUpdate f) w (.retry prev) act w (.looked f w)
  /-- The exchange of `fetch_update` succeeds. -/
  | exchange (f : W → Option W) (w new : W) (hf : f w = some new) :
      Moves (.fetchUpdate f) w (.retry w) .go new (.done (.ok w))

/-- **Everything a step can do.** -/
theorem AtomicOp.moves (h : op.code w p act = some (w', p')) : op.Moves w p act w' p' := by
  cases p with
  | done r => exact absurd h (by simp [code])
  | start =>
    cases act with
    | spurious => exact absurd h (by simp [code])
    | go =>
      cases op with
      | fetchUpdate f =>
        obtain ⟨rfl, rfl⟩ := Prod.mk.inj (Option.some.inj h)
        exact .load f w
      | load | swap new | compareExchange current new =>
        obtain ⟨rfl, rfl⟩ := Prod.mk.inj (Option.some.inj h)
        exact .access _ w
  | retry prev =>
    cases op with
    | load | swap new | compareExchange current new => exact absurd h (by simp [code])
    | fetchUpdate f =>
      cases hf : f prev with
      | none => exact absurd h (by simp [code, hf])
      | some new =>
        cases act with
        | spurious =>
          simp only [code, hf] at h
          obtain ⟨rfl, rfl⟩ := Prod.mk.inj (Option.some.inj h)
          exact .fail f w prev .spurious (by simp)
        | go =>
          simp only [code, hf] at h
          split_ifs at h with heq
          · subst heq
            obtain ⟨rfl, rfl⟩ := Prod.mk.inj (Option.some.inj h)
            exact .exchange f w new hf
          · obtain ⟨rfl, rfl⟩ := Prod.mk.inj (Option.some.inj h)
            exact .fail f w prev .go fun _ => heq

/-- **Every method takes effect in one of its steps**, its last one. -/
theorem AtomicOp.Moves.commits (h : op.Moves w p act w' p') :
    p.result = none ∧ Commits op.atomic AtomicPc.result w w' p' := by
  cases h with
  | load f => exact ⟨rfl, AtomicPc.looked_commits f w⟩
  | access => exact ⟨rfl, .commit rfl rfl⟩
  | fail f _ prev _ _ => exact ⟨rfl, AtomicPc.looked_commits f w⟩
  | exchange f _ new hf =>
    exact ⟨rfl, .commit (by simp [AtomicOp.atomic, hf])
      (by simp [AtomicPc.result, AtomicOp.atomic, hf])⟩

/-! #### How often a call accesses the word

A compare-exchange fails, spurious failures apart, only if the word is not the one the call has
read, and then another call has taken effect in between. -/

/-- Of a call that has made `n` accesses, spurious failures apart, while `k` others took effect, and
the word is now `w`: it is behind the others, unless `w` is what it has read. -/
def AtomicPc.Paced (n k : Nat) (w : W) : AtomicPc W → Prop
  | .start => n = 0
  | .retry prev => n ≤ k + 1 ∧ (n = k + 1 → prev = w)
  | .done _ => n ≤ k + 2

omit [DecidableEq W] in
theorem AtomicPc.Paced.le {n k : Nat} (h : p.Paced n k w) : n ≤ k + 2 := by
  cases p with
  | start => exact h ▸ Nat.zero_le _
  | retry prev => exact Nat.le_succ_of_le h.1
  | done r => exact h

omit [DecidableEq W] in
/-- A call that has not returned. -/
theorem AtomicPc.Paced.le_of_open {n k : Nat} (h : p.Paced n k w) (hopen : p.result = none) :
    n ≤ k + 1 := by
  cases p with
  | start => exact h ▸ Nat.zero_le _
  | retry prev => exact h.1
  | done r => cases hopen

omit [DecidableEq W] in
/-- Another call takes effect. -/
theorem AtomicPc.Paced.other {n k : Nat} (h : p.Paced n k w) (w' : W) : p.Paced n (k + 1) w' := by
  cases p with
  | start => exact h
  | retry prev => exact ⟨Nat.le_succ_of_le h.1, fun heq => absurd h.1 (by omega)⟩
  | done r => exact Nat.le_succ_of_le h

omit [DecidableEq W] in
theorem AtomicPc.paced_looked {f : W → Option W} {n k : Nat} (h : n ≤ k + 1) :
    (looked f w).Paced n k w := by
  unfold looked
  cases f w with
  | some new => exact ⟨h, fun _ => rfl⟩
  | none => exact Nat.le_succ_of_le h

/-- A step of the call. -/
theorem AtomicPc.Paced.step {n k : Nat} (hp : p.Paced n k w) (h : op.Moves w p act w' p') :
    p'.Paced (if act = .go then n + 1 else n) k w' := by
  cases h with
  | load f =>
    obtain rfl : n = 0 := hp
    exact paced_looked (by simp)
  | access =>
    obtain rfl : n = 0 := hp
    simp [Paced]
  | fail f _ prev _ hact =>
    refine paced_looked ?_
    by_cases hgo : act = .go
    · -- the word has changed since, so the call was behind
      have hbehind : n ≠ k + 1 := fun heq => hact hgo (hp.2 heq).symm
      have hn := hp.1
      rw [if_pos hgo]
      omega
    · rw [if_neg hgo]
      exact hp.1
  | exchange f _ new hf => exact Nat.succ_le_succ hp.1

/-- The loop of `fetch_update` is entered with an update for the word that was read. -/
def AtomicPc.Enters (op : AtomicOp W) : AtomicPc W → Prop
  | .retry prev => ∃ f new, op = .fetchUpdate f ∧ f prev = some new
  | _ => True

omit [DecidableEq W] in
theorem AtomicPc.enters_looked (f : W → Option W) (w : W) :
    (looked f w).Enters (.fetchUpdate f) := by
  unfold looked
  cases hf : f w with
  | some new => exact ⟨f, new, rfl, hf⟩
  | none => trivial

theorem AtomicOp.Moves.enters (h : op.Moves w p act w' p') : p'.Enters op := by
  cases h with
  | load f => exact AtomicPc.enters_looked f w
  | access => trivial
  | fail f => exact AtomicPc.enters_looked f w
  | exchange => trivial

/-- A call that has not returned can take a step. -/
theorem AtomicPc.Enters.goes (h : p.Enters op) (hopen : p.result = none) :
    ∃ r, op.code w p .go = some r := by
  cases p with
  | start => cases op <;> exact ⟨_, rfl⟩
  | done r => cases hopen
  | retry prev =>
    obtain ⟨f, new, rfl, hf⟩ := h
    by_cases hw : w = prev
    · exact ⟨(new, .done (.ok prev)), by simp only [AtomicOp.code, hf, if_pos hw]⟩
    · exact ⟨(w, .looked f w), by simp only [AtomicOp.code, hf, if_neg hw]⟩

end Atomic

/-! ### Calls of the methods of one word -/

section Family

variable {C W R : Type} [DecidableEq W]

/-- A call of a method, and what it makes of the method's result. -/
structure AtomicCall (W R : Type) where
  op : AtomicOp W
  answer : Except W W → R

/-- The call at one moment. -/
def AtomicCall.spec (call : AtomicCall W R) (w : W) : W × R :=
  ((call.op.atomic w).1, call.answer (call.op.atomic w).2)

/-- What the call has returned. -/
def AtomicCall.result (call : AtomicCall W R) (p : AtomicPc W) : Option R :=
  p.result.map call.answer

/-- The calls, step by step. -/
def AtomicCall.code (calls : C → AtomicCall W R) : Code C W (AtomicPc W) AtomicAct :=
  fun c => (calls c).op.code

/-- All calls about to start. -/
def AtomicCall.init (w : W) : Calls C W (AtomicPc W) := ⟨w, fun _ => .start⟩

variable {calls : C → AtomicCall W R} {w : W} {s t : Calls C W (AtomicPc W)} {order : List C}
  {ls ms : List (C × AtomicAct)}

/-- The calls that have returned, in the order in which they took effect. -/
abbrev AtomicCall.Ordered (calls : C → AtomicCall W R) (w : W) (order : List C)
    (s : Calls C W (AtomicPc W)) : Prop :=
  Linear (fun c => (calls c).spec) (fun c => (calls c).result) w order s

theorem AtomicCall.commits {call : AtomicCall W R} {w w' : W} {p p' : AtomicPc W} {act : AtomicAct}
    (h : call.op.code w p act = some (w', p')) :
    call.result p = none ∧ Commits call.spec call.result w w' p' := by
  obtain ⟨hopen, hc⟩ := (AtomicOp.moves h).commits
  refine ⟨by simp [result, hopen], ?_⟩
  cases hc with
  | silent hmem hpc => exact .silent hmem (by simp [result, hpc])
  | commit hmem hpc => exact .commit hmem (by simp [result, hpc, spec])

theorem AtomicCall.ordered_init : Ordered calls w [] (init w) := Linear.start fun _ => rfl

variable [DecidableEq C]

/-- **The calls are linearizable**: at every moment of a run those that have returned did so as if
made one after another, and the order only grows at its end. -/
theorem AtomicCall.ordered_run (h : Ordered calls w order s)
    (r : Run (Calls.Step (code calls)) s ls t) : ∃ more, Ordered calls w (order ++ more) t :=
  Linear.run (fun _ _ _ _ _ _ hc => commits hc) r h

/-- After the steps `ls`, which lead from a state with `order`: the calls that have returned since
are in order, and `c` has made no more accesses than the others among them allow. -/
def AtomicCall.Keeps (calls : C → AtomicCall W R) (w : W) (order : List C) (c : C)
    (ls : List (C × AtomicAct)) (s : Calls C W (AtomicPc W)) : Prop :=
  ∃ more, Ordered calls w (order ++ more) s ∧
    (s.pc c).Paced (ls.count (c, .go)) (more.filter (· ≠ c)).length s.mem

/-- A step of `c`. -/
theorem AtomicCall.Keeps.own {c : C} {act : AtomicAct} (h : Keeps calls w order c ls s)
    (hs : Calls.Step (code calls) s (c, act) t) :
    Keeps calls w order c (ls ++ [(c, act)]) t := by
  obtain ⟨more, hord, hp⟩ := h
  obtain ⟨hopen, hc⟩ := commits hs.own
  have hstep := hp.step (AtomicOp.moves hs.own)
  have hcount : (ls ++ [(c, act)]).count (c, .go) =
      if act = .go then ls.count (c, .go) + 1 else ls.count (c, .go) := by
    cases act <;> simp [List.count_append]
  unfold Keeps
  rw [hcount]
  cases hc with
  | silent hmem hpc => exact ⟨more, hord.silent hs hopen hmem hpc, hstep⟩
  | commit hmem hpc =>
    refine ⟨more ++ [c], List.append_assoc order more [c] ▸ hord.commit hs hopen hmem hpc, ?_⟩
    have hsame : (more ++ [c]).filter (· ≠ c) = more.filter (· ≠ c) := by simp
    rwa [hsame]

/-- A step of another call. -/
theorem AtomicCall.Keeps.other {c d : C} {act : AtomicAct} (h : Keeps calls w order c ls s)
    (hs : Calls.Step (code calls) s (d, act) t) (hd : d ≠ c) :
    Keeps calls w order c (ls ++ [(d, act)]) t := by
  obtain ⟨more, hord, hp⟩ := h
  obtain ⟨hopen, hc⟩ := commits hs.own
  have hcount : (ls ++ [(d, act)]).count (c, .go) = ls.count (c, .go) := by
    simp [List.count_append, hd]
  unfold Keeps
  rw [hcount, hs.other hd.symm]
  cases hc with
  | silent hmem hpc => exact ⟨more, hord.silent hs hopen hmem hpc, hmem ▸ hp⟩
  | commit hmem hpc =>
    refine ⟨more ++ [d], List.append_assoc order more [d] ▸ hord.commit hs hopen hmem hpc, ?_⟩
    have hmore : ((more ++ [d]).filter (· ≠ c)).length = (more.filter (· ≠ c)).length + 1 := by
      simp [hd]
    rw [hmore]
    exact hp.other t.mem

/-- **No call waits for long**: from where it has not started on, and spurious failures apart, it
makes two accesses more than there are other calls that take effect, at most. -/
theorem AtomicCall.accesses_le {c : C} (h : Ordered calls w order s) (hstart : s.pc c = .start)
    (r : Run (Calls.Step (code calls)) s ls t) : Keeps calls w order c ls t := by
  refine r.history (Keeps calls w order c) ?_
    ⟨[], (List.append_nil order).symm ▸ h, by rw [hstart]; exact rfl⟩
  rintro ls s ⟨d, act⟩ u h hs
  by_cases hd : d = c
  · subst hd
    exact h.own hs
  · exact h.other hs hd

/-- **No call waits for another one**: wherever a run has got to, a call that has not returned can
take its next step. -/
theorem AtomicCall.goes (r : Run (Calls.Step (code calls)) (init w) ls t) {c : C}
    (hopen : (calls c).result (t.pc c) = none) : ∃ u, Calls.Step (code calls) t (c, .go) u := by
  have henters : ∀ d, (t.pc d).Enters (calls d).op := by
    refine r.invariant (fun s => ∀ d, (s.pc d).Enters (calls d).op) ?_ fun _ => trivial
    rintro s ⟨d, act⟩ u h hs
    exact hs.forall_pc _ (AtomicOp.moves hs.own).enters fun e _ => h e
  obtain ⟨next, hnext⟩ := (henters c).goes (Option.map_eq_none_iff.mp hopen)
  exact ⟨_, Option.map_eq_some_iff.mpr ⟨next, hnext, rfl⟩⟩

end Family

end Harmony.Lib
