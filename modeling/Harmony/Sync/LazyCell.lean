import Harmony.Sync.OnceCell

/-!
# `AtomicLazyCell`: a value that is computed on first use

The model follows `sync/src/cell/atomic_lazy_cell.rs`. `get` is a `set_with` of the inner once cell,
whose function takes the cell's function out of its slot and runs it, and then a loop of `get`s of
the once cell. `get_mut` makes the same `set_with`, then one `get_mut`, and its caller may assign to
the reference it returns. `get_mut` has the cell for itself: two calls are in progress together only
if both are `get`s (`Admitted`), which is what the borrow of `&mut self` says.

The slot is not synchronised. It is only touched by the one call that the once cell lets run its
function (`LazyReached.took`), so a call never finds it empty: `lazy_cell_evaluates_once`.
-/

namespace Harmony

open Lib

/-! ### The cell -/

/-- `AtomicLazyCell`: the once cell and the slot of the function. -/
structure AtomicLazyCell (T : Type) where
  inner : AtomicOnceCell T
  slot : Option (Unit → T)

/-- `AtomicLazyCell::new`. -/
def AtomicLazyCell.new {T : Type} (f : Unit → T) : AtomicLazyCell T := ⟨.new, some f⟩

/-- Where the function given to `set_with` is. -/
inductive Force (T : Type) where
  | take
  /-- It runs what it has taken. -/
  | call (f : Unit → T)
  /-- The panic `Lazy instance has previously been poisoned`. -/
  | poisoned

/-- A call on the cell. -/
inductive LazyCall where
  | get
  | getMut
  deriving DecidableEq

/-- Where such a call is. After the `set_with`, `ended` says how that has ended. -/
inductive LazyPc (T : Type) where
  /-- It has not been made yet. -/
  | ready
  | set (p : SetWith (Force T) T)
  /-- In a `get` of the once cell, or in its `get_mut`. -/
  | get (ended : Except OnceError Unit) (p : Get T)
  /-- `get` has returned. -/
  | done (ended : Except OnceError Unit) (v : T)
  /-- `get_mut` has returned, and its reference is in use. -/
  | holding (ended : Except OnceError Unit)
  | released (ended : Except OnceError Unit)
  /-- The panic `Lazy instance should have been initialized`. -/
  | panicked (ended : Except OnceError Unit)

/-- A call goes on, or the caller of `get_mut` uses the reference. -/
inductive LazyAct (T : Type) where
  | go
  | assign (v : T)
  | release

variable {T : Type}

/-- A step of the function given to `set_with`. -/
def AtomicLazyCell.force (cell : AtomicLazyCell T) :
    Force T → Option (AtomicLazyCell T × SetWith (Force T) T)
  | .take =>
    match cell.slot with
    | some f => some ({ cell with slot := none }, .run (.call f))
    | none => some (cell, .run .poisoned)
  | .call f => some (cell, .write (f ()))
  | .poisoned => none

/-- What a call does with the result of the once cell's `get`: `get` tries again where there is
none, `get_mut` panics. -/
def LazyCall.got (ended : Except OnceError Unit) : LazyCall → Option T → LazyPc T
  | .get, none => .get ended .load
  | .get, some v => .done ended v
  | .getMut, none => .panicked ended
  | .getMut, some _ => .holding ended

/-- A step of a call. -/
def AtomicLazyCell.next (cell : AtomicLazyCell T) (call : LazyCall) :
    LazyPc T → LazyAct T → Option (AtomicLazyCell T × LazyPc T)
  | .ready, .go => some (cell, .set (.exchange .take))
  | .set (.run f), .go => (cell.force f).map fun r => (r.1, .set r.2)
  | .set (.done ended), .go => some (cell, .get ended .load)
  | .set p, .go => (cell.inner.setWith p).map fun r => ({ cell with inner := r.1 }, .set r.2)
  | .get ended (.done r), .go => some (cell, call.got ended r)
  | .get ended p, .go => (cell.inner.get p).map fun p' => (cell, .get ended p')
  | .holding ended, .assign v =>
    some ({ cell with inner := { cell.inner with value := some v } }, .holding ended)
  | .holding ended, .release => some (cell, .released ended)
  | _, _ => none

/-- The `set_with` a call is in or was in. -/
def LazyPc.setOf : LazyPc T → Option (SetWith (Force T) T)
  | .ready => none
  | .set p => some p
  | .get ended _ => some (.done ended)
  | .done ended _ => some (.done ended)
  | .holding ended => some (.done ended)
  | .released ended => some (.done ended)
  | .panicked ended => some (.done ended)

/-- The call was made and has not returned, or its reference is in use. -/
def LazyPc.InProgress : LazyPc T → Prop
  | .ready => False
  | .done _ _ => False
  | .released _ => False
  | _ => True

/-! ### Runs -/

section Runs

variable {C : Type}

/-- The code of the calls. -/
def lazyCode (prog : C → LazyCall) : Code C (AtomicLazyCell T) (LazyPc T) (LazyAct T) :=
  fun c cell p a => cell.next (prog c) p a

/-- A call is made only when it may be in progress together with those that are. -/
def Admitted (prog : C → LazyCall) (s : Calls C (AtomicLazyCell T) (LazyPc T)) (c : C) : Prop :=
  s.pc c = .ready → ∀ d, (s.pc d).InProgress → prog c = .get ∧ prog d = .get

/-- One step of one call. -/
def LazyStep [DecidableEq C] (prog : C → LazyCall) (s : Calls C (AtomicLazyCell T) (LazyPc T))
    (l : C × LazyAct T) (t : Calls C (AtomicLazyCell T) (LazyPc T)) : Prop :=
  Calls.Step (lazyCode prog) s l t ∧ Admitted prog s l.1

/-- A new cell, before the first call. -/
def lazyStart (C : Type) (f : Unit → T) : Calls C (AtomicLazyCell T) (LazyPc T) :=
  ⟨.new f, fun _ => .ready⟩

end Runs

/-! ### What one step does -/

/-- The steps of a call. -/
inductive LazyPc.Moves (call : LazyCall) (cell : AtomicLazyCell T) :
    LazyPc T → LazyAct T → AtomicLazyCell T → LazyPc T → Prop
  | called : Moves call cell .ready .go cell (.set (.exchange .take))
  | set {p p' : SetWith (Force T) T} {inner' : AtomicOnceCell T}
      (h : p.Moves cell.inner inner' p') :
      Moves call cell (.set p) .go { cell with inner := inner' } (.set p')
  | took (f : Unit → T) (h : cell.slot = some f) :
      Moves call cell (.set (.run .take)) .go { cell with slot := none } (.set (.run (.call f)))
  | poisoned (h : cell.slot = none) :
      Moves call cell (.set (.run .take)) .go cell (.set (.run .poisoned))
  | ran (f : Unit → T) : Moves call cell (.set (.run (.call f))) .go cell (.set (.write (f ())))
  | next (ended : Except OnceError Unit) :
      Moves call cell (.set (.done ended)) .go cell (.get ended .load)
  | get (ended : Except OnceError Unit) {p p' : Get T} (h : p.Moves cell.inner p') :
      Moves call cell (.get ended p) .go cell (.get ended p')
  | got (ended : Except OnceError Unit) (r : Option T) :
      Moves call cell (.get ended (.done r)) .go cell (call.got ended r)
  | assigned (ended : Except OnceError Unit) (v : T) :
      Moves call cell (.holding ended) (.assign v)
        { cell with inner := { cell.inner with value := some v } } (.holding ended)
  | released (ended : Except OnceError Unit) :
      Moves call cell (.holding ended) .release cell (.released ended)

section Point

variable {call : LazyCall} {cell cell' : AtomicLazyCell T} {p p' : LazyPc T} {a : LazyAct T}

theorem AtomicLazyCell.moves_of_next (h : cell.next call p a = some (cell', p')) :
    p.Moves call cell a cell' p' := by
  cases a with
  | go =>
    cases p with
    | ready =>
      obtain ⟨rfl, rfl⟩ := Prod.mk.inj (Option.some.inj h)
      exact .called
    | set p =>
      cases p with
      | run f =>
        cases f with
        | take =>
          cases hslot : cell.slot with
          | none =>
            simp only [next, force, hslot, Option.map_some, Option.some.injEq, Prod.mk.injEq] at h
            obtain ⟨rfl, rfl⟩ := h
            exact .poisoned hslot
          | some f =>
            simp only [next, force, hslot, Option.map_some, Option.some.injEq, Prod.mk.injEq] at h
            obtain ⟨rfl, rfl⟩ := h
            exact .took f hslot
        | call f =>
          obtain ⟨rfl, rfl⟩ := Prod.mk.inj (Option.some.inj h)
          exact .ran f
        | poisoned => simp [next, force] at h
      | done ended =>
        obtain ⟨rfl, rfl⟩ := Prod.mk.inj (Option.some.inj h)
        exact .next ended
      | _ =>
        simp only [next, Option.map_eq_some_iff, Prod.mk.injEq] at h
        obtain ⟨r, hr, rfl, rfl⟩ := h
        exact .set (AtomicOnceCell.moves_of_setWith hr)
    | get ended p =>
      cases p with
      | done r =>
        obtain ⟨rfl, rfl⟩ := Prod.mk.inj (Option.some.inj h)
        exact .got ended r
      | _ =>
        simp only [next, Option.map_eq_some_iff, Prod.mk.injEq] at h
        obtain ⟨q, hq, rfl, rfl⟩ := h
        exact .get ended (AtomicOnceCell.moves_of_get hq)
    | _ => simp [next] at h
  | assign v =>
    cases p with
    | holding ended =>
      obtain ⟨rfl, rfl⟩ := Prod.mk.inj (Option.some.inj h)
      exact .assigned ended v
    | _ => simp [next] at h
  | release =>
    cases p with
    | holding ended =>
      obtain ⟨rfl, rfl⟩ := Prod.mk.inj (Option.some.inj h)
      exact .released ended
    | _ => simp [next] at h

/-- The once cell is only touched as a client may touch it. -/
theorem LazyPc.Moves.onceMove (h : p.Moves call cell a cell' p') :
    OnceMove cell.inner p.setOf cell'.inner p'.setOf := by
  cases h with
  | called => exact .called _
  | set h => exact .set h
  | took f h => exact .ran _ _
  | poisoned h => exact .ran _ _
  | ran f => exact .returned _ _
  | next ended => exact .other _
  | get ended h => exact .other _
  | got ended r =>
    have hset : (call.got ended r).setOf = some (.done ended) := by
      cases call <;> cases r <;> rfl
    rw [hset]
    exact .other _
  | assigned ended v => exact .assigned _ v
  | released ended => exact .other _

/-- The slot is only touched by taking the function out of it. -/
theorem LazyPc.Moves.took_of_ne (h : p.Moves call cell a cell' p') (hne : cell'.slot ≠ cell.slot) :
    p = .set (.run .take) ∧ cell'.slot = none := by
  cases h with
  | took f h => exact ⟨rfl, rfl⟩
  | _ => exact absurd rfl hne

/-- So only the call that won touches it. -/
theorem LazyPc.Moves.slot_eq (h : p.Moves call cell a cell' p') (hnot : ¬ Won p.setOf) :
    cell'.slot = cell.slot := by
  by_contra hne
  obtain ⟨rfl, _⟩ := h.took_of_ne hne
  exact hnot trivial

/-- A call that is in progress was in progress, or has just been made. -/
theorem LazyPc.Moves.inProgress (h : p.Moves call cell a cell' p') (hin : p'.InProgress) :
    p.InProgress ∨ p = .ready := by
  cases h with
  | called => exact Or.inr rfl
  | released ended => exact absurd hin id
  | _ => exact Or.inl trivial

theorem LazyPc.inProgress_of_initializing (h : Initializing p.setOf) : p.InProgress := by
  cases p with
  | set p => trivial
  | _ => exact absurd h id

/-- What the point of a call says about the cell. `f` is the function the cell was made with, `Seen`
holds of the values the cell can have. -/
def LazyPc.Agrees (f : Unit → T) (Seen : T → Prop) (call : LazyCall) (cell : AtomicLazyCell T) :
    LazyPc T → Prop
  | .ready => True
  | .set (.exchange k) => k = .take
  | .set (.run .take) => cell.slot = some f
  | .set (.run (.call g)) => g = f
  | .set (.run .poisoned) => False
  | .set (.write v) => v = f ()
  | .set .store => True
  | .set (.done _) => call = .getMut → cell.inner.init = 2
  | .set (.unknown _) => True
  | .get _ .load => call = .getMut → cell.inner.init = 2
  | .get _ .read => cell.inner.init = 2
  | .get _ (.done none) => call = .get
  | .get _ (.done (some v)) => cell.inner.init = 2 ∧ Seen v
  | .get _ .uninit => False
  | .done _ v => cell.inner.init = 2 ∧ Seen v
  | .holding _ => True
  | .released _ => True
  | .panicked _ => False

variable {f : Unit → T} {Seen : T → Prop}

theorem LazyPc.agrees_refusal {i : UInt8} (h : call = .getMut → cell.inner.init = 2) :
    Agrees f Seen call cell (.set (.refusal i)) := by
  unfold SetWith.refusal
  split_ifs
  · exact h
  · exact h
  · trivial

/-- The call that takes the step. -/
theorem LazyPc.Agrees.own (hagree : p.Agrees f Seen call cell) (h : p.Moves call cell a cell' p')
    (hslot : cell.inner.init = 0 → cell.slot = some f)
    (hsome : cell.inner.init = 2 → cell.inner.value.isSome)
    (hseen : ∀ v, cell.inner.value = some v → Seen v)
    (hmut : ∀ k, p = .set (.exchange k) → call = .getMut → cell.inner.init ≠ 0 →
      cell.inner.init = 2) : p'.Agrees f Seen call cell' := by
  cases h with
  | called => rfl
  | set h =>
    cases h with
    | won k h0 =>
      obtain rfl : k = .take := hagree
      exact hslot h0
    | lost k h0 => exact agrees_refusal fun hcall => hmut k rfl hcall h0
    | wrote v => trivial
    | stored => exact fun _ => rfl
  | took g h => exact Option.some.inj (h.symm.trans hagree)
  | poisoned h => simp [Agrees, h] at hagree
  | ran g =>
    obtain rfl : g = f := hagree
    rfl
  | next ended => exact hagree
  | get ended h =>
    cases h with
    | loaded h => exact h
    | missed h =>
      cases call with
      | get => rfl
      | getMut => exact absurd (hagree rfl) h
    | read v h => exact ⟨hagree, hseen v h⟩
    | uninit h => simpa [h] using hsome hagree
  | got ended r =>
    cases r with
    | none =>
      obtain rfl : call = .get := hagree
      exact fun hcall => absurd hcall (by simp)
    | some v =>
      cases call with
      | get => exact hagree
      | getMut => trivial
  | assigned ended v => trivial
  | released ended => trivial

/-- Another call. -/
theorem LazyPc.Agrees.other (hagree : p.Agrees f Seen call cell)
    (htwo : cell.inner.init = 2 → cell'.inner.init = 2)
    (hslot : Won p.setOf → cell'.slot = cell.slot) : p.Agrees f Seen call cell' := by
  cases p with
  | set p =>
    cases p with
    | run k =>
      cases k with
      | take => exact (hslot trivial).trans hagree
      | _ => exact hagree
    | done r => exact fun hcall => htwo (hagree hcall)
    | _ => exact hagree
  | get ended p =>
    cases p with
    | load => exact fun hcall => htwo (hagree hcall)
    | read => exact htwo hagree
    | done r =>
      cases r with
      | none => exact hagree
      | some v => exact ⟨htwo hagree.1, hagree.2⟩
    | uninit => exact hagree
  | done ended v => exact ⟨htwo hagree.1, hagree.2⟩
  | _ => exact hagree

/-- What a step leaves in the once cell. -/
theorem LazyPc.Moves.seen (h : p.Moves call cell a cell' p') (hagree : p.Agrees f Seen call cell)
    (hf : Seen (f ())) (hassign : ∀ v, a = .assign v → Seen v)
    (hseen : ∀ v, cell.inner.value = some v → Seen v) (v : T) (hv : cell'.inner.value = some v) :
    Seen v := by
  cases h with
  | set h =>
    cases h with
    | wrote w =>
      obtain rfl : w = f () := hagree
      exact Option.some.inj hv ▸ hf
    | _ => exact hseen v hv
  | assigned ended w => exact Option.some.inj hv ▸ hassign w rfl
  | _ => exact hseen v hv

end Point

/-! ### What every run keeps -/

section Reached

variable {C : Type} {prog : C → LazyCall} {f : Unit → T} {Seen : T → Prop}
  {s t : Calls C (AtomicLazyCell T) (LazyPc T)} {l : C × LazyAct T} {ls : List (C × LazyAct T)}

/-- What holds in every reachable state. -/
structure LazyReached (prog : C → LazyCall) (f : Unit → T) (Seen : T → Prop)
    (s : Calls C (AtomicLazyCell T) (LazyPc T)) : Prop where
  once : OnceInv AtomicLazyCell.inner LazyPc.setOf s
  /-- The function is in its slot until a call wins. -/
  slot : s.mem.inner.init = 0 → s.mem.slot = some f
  seen : ∀ v, s.mem.inner.value = some v → Seen v
  agrees : ∀ c, (s.pc c).Agrees f Seen (prog c) s.mem
  /-- Two calls are in progress together only if both are `get`s. -/
  shared : ∀ c d, c ≠ d → (s.pc c).InProgress → (s.pc d).InProgress → prog c = .get

theorem lazyReached_start (prog : C → LazyCall) (f : Unit → T) (Seen : T → Prop) :
    LazyReached prog f Seen (lazyStart C f) where
  once := OnceInv.start rfl fun _ => Or.inl rfl
  slot _ := rfl
  seen v hv := by simp [lazyStart, AtomicLazyCell.new, AtomicOnceCell.new] at hv
  agrees _ := trivial
  shared _ _ _ hin _ := absurd hin id

theorem LazyReached.agrees_at {c : C} {p : LazyPc T} (h : LazyReached prog f Seen s)
    (hc : s.pc c = p) : p.Agrees f Seen (prog c) s.mem := by
  rw [← hc]
  exact h.agrees c

/-- A `get_mut` at its compare-exchange finds the cell new or initialised: nobody else is there to
initialise it. -/
theorem LazyReached.init_of_getMut {c : C} {k : Force T} (h : LazyReached prog f Seen s)
    (hc : s.pc c = .set (.exchange k)) (hmut : prog c = .getMut) (h0 : s.mem.inner.init ≠ 0) :
    s.mem.inner.init = 2 := by
  refine (h.once.states.resolve_left h0).resolve_left fun hone => ?_
  obtain ⟨d, hd⟩ := h.once.one.1.mp hone
  have hne : c ≠ d := by
    rintro rfl
    rw [hc] at hd
    exact hd
  have hget := h.shared c d hne (by rw [hc]; trivial) (LazyPc.inProgress_of_initializing hd)
  simp [hmut] at hget

theorem lazyClient (prog : C → LazyCall) :
    OnceClient (T := T) AtomicLazyCell.inner LazyPc.setOf (lazyCode prog) :=
  fun _ _ _ _ _ _ h => (AtomicLazyCell.moves_of_next h).onceMove

variable [DecidableEq C]

theorem LazyReached.step (h : LazyReached prog f Seen s) (hs : LazyStep prog s l t)
    (hf : Seen (f ())) (hassign : ∀ v, l.2 = .assign v → Seen v) : LazyReached prog f Seen t := by
  have honce := h.once.step (lazyClient prog) hs.1
  have hmove := AtomicLazyCell.moves_of_next hs.1.own
  have hforward := hmove.onceMove.forward h.once.one.taken_of_holds
  refine ⟨honce, fun h0 => ?_, hmove.seen (h.agrees l.1) hf hassign h.seen,
    hs.1.forall_pc (fun c p => p.Agrees f Seen (prog c) t.mem) ?_ fun d hd => ?_, ?_⟩
  · -- nobody has won before a step that leaves `init` at `0`
    have hinit := hforward.eq_zero h0
    rw [hmove.slot_eq (h.once.winner.not_holds (not_not_intro hinit))]
    exact h.slot hinit
  · exact (h.agrees l.1).own hmove h.slot h.once.isSome h.seen fun k hk => h.init_of_getMut hk
  · exact (h.agrees d).other hforward.eq_two fun hwon =>
      hmove.slot_eq fun hwon' => hd (h.once.winner.2 d l.1 hwon hwon')
  · intro c d hne hc hd
    have hback : ∀ e, (t.pc e).InProgress →
        (s.pc e).InProgress ∨ e = l.1 ∧ s.pc e = .ready :=
      hs.1.forall_pc (fun e p => p.InProgress → (s.pc e).InProgress ∨ e = l.1 ∧ s.pc e = .ready)
        (fun hin => (hmove.inProgress hin).imp_right fun hready => ⟨rfl, hready⟩)
        fun _ _ => Or.inl
    rcases hback c hc, hback d hd with ⟨hc' | ⟨rfl, hready⟩, hd' | ⟨hl, hready'⟩⟩
    · exact h.shared c d hne hc' hd'
    · exact (hs.2 (hl ▸ hready') c hc').2
    · exact (hs.2 hready d hd').1
    · exact absurd hl.symm hne

/-- The values that can be in the cell: the one its function returns, and those that were assigned
through a reference of `get_mut`. -/
def Given (f : Unit → T) (ls : List (C × LazyAct T)) (v : T) : Prop :=
  v = f () ∨ ∃ c, (c, LazyAct.assign v) ∈ ls

theorem lazyReached_run (r : Run (LazyStep prog) (lazyStart C f) ls s) :
    LazyReached prog f (Given f ls) s := by
  refine r.invariant_mem (LazyReached prog f (Given f ls)) (fun u l v hl hu hs => ?_)
    (List.Subset.refl ls) (lazyReached_start prog f _)
  exact hu.step hs (Or.inl rfl) fun w hw => Or.inr ⟨l.1, by rwa [← hw]⟩

/-- **The function is evaluated once.** In every state that calls of `get` and `get_mut` can reach,
in any number and any interleaving in which a `get_mut` has the cell for itself:

* one call at most has won the compare-exchange;
* only that call touches the slot, by taking the function out of it, and what it runs is the
  function;
* no call has panicked, neither for a poisoned instance nor for one that is not initialised;
* a `get` that has returned comes after the winner's run has finished and its value is stored, and
  returns the value of that run, or one that was assigned through a `get_mut`. -/
theorem lazy_cell_evaluates_once (prog : C → LazyCall) (f : Unit → T)
    (r : Run (LazyStep prog) (lazyStart C f) ls s) :
    (∀ c d, Won (s.pc c).setOf → Won (s.pc d).setOf → c = d) ∧
    (∀ l t, LazyStep prog s l t → t.mem.slot ≠ s.mem.slot →
      Won (s.pc l.1).setOf ∧ s.mem.slot = some f ∧ t.mem.slot = none) ∧
    (∀ c g, s.pc c = .set (.run (.call g)) → g = f) ∧
    (∀ c, s.pc c ≠ .set (.run .poisoned)) ∧
    (∀ c ended, s.pc c ≠ .panicked ended) ∧
    (∀ c ended v, s.pc c = .done ended v →
      (∃ w, (s.pc w).setOf = some (.done (.ok ()))) ∧
      (v = f () ∨ ∃ d, (d, LazyAct.assign v) ∈ ls)) := by
  have hs := lazyReached_run r
  refine ⟨hs.once.winner.2, fun l t hst hslot => ?_, fun c g hc => ?_, fun c hc => ?_,
    fun c ended hc => ?_, fun c ended v hc => ?_⟩
  · obtain ⟨hp, hnone⟩ := (AtomicLazyCell.moves_of_next hst.1.own).took_of_ne hslot
    refine ⟨?_, hs.agrees_at hp, hnone⟩
    rw [hp]
    trivial
  · exact hs.agrees_at hc
  · exact hs.agrees_at hc
  · exact hs.agrees_at hc
  · obtain ⟨htwo, hgiven⟩ := hs.agrees_at hc
    exact ⟨hs.once.exists_winner htwo, hgiven⟩

/-- Two `get`s: one wins, the other spins until the value is there. -/
theorem lazy_cell_evaluates_once_twoGets :
    ∃ ls s, Run (LazyStep fun _ => .get) (lazyStart Bool fun _ => 10) ls s ∧
      s.pc false = .done (.error .initializing) 10 ∧
      ∃ w, (s.pc w).setOf = some (.done (.ok ())) := by
  have hrun : ∃ s, Run (LazyStep fun _ => .get) (lazyStart Bool fun _ => 10)
      [(true, .go), (true, .go), (false, .go), (false, .go), (false, .go), (false, .go),
        (false, .go), (true, .go), (true, .go), (true, .go), (true, .go), (false, .go),
        (false, .go), (false, .go)] s ∧
      s.pc false = .done (.error .initializing) 10 :=
    ⟨_, (Calls.run_of_exec rfl).mono fun _ _ _ h => ⟨h, fun _ _ _ => ⟨rfl, rfl⟩⟩, rfl⟩
  obtain ⟨s, r, hgot⟩ := hrun
  exact ⟨_, s, r, hgot, ((lazy_cell_evaluates_once _ _ r).2.2.2.2.2 false _ 10 hgot).1⟩

end Reached

end Harmony
