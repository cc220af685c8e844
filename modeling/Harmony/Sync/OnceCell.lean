import Harmony.Lib.Interleaving

/-!
# `AtomicOnceCell`: a cell that is written once

The model follows `sync/src/cell/atomic_once_cell.rs`. `set_with` is a compare-exchange of `init`,
the run of its function, the write of the value and the store of `init`; `get` is a load of `init`
and a read of the value. Each of them is one step, and the calls' steps interleave freely.

A client is any system of calls that only touches the cell through those steps (`OnceMove`). What
holds for every client is `OnceInv`: `init` is `1` exactly while one call initialises, and some
`set_with` has won exactly when `init` is not `0`. The cell's own calls are one client
(`onceCode`), those of the lazy cell are another.
-/

namespace Harmony

open Lib

/-! ### The cell -/

/-- `AtomicOnceCell`: the value, uninitialised at first, and the state of the initialisation. -/
@[ext]
structure AtomicOnceCell (T : Type) where
  value : Option T
  init : UInt8
  deriving DecidableEq

/-- `AtomicOnceCell::new`. -/
def AtomicOnceCell.new {T : Type} : AtomicOnceCell T := ⟨none, 0⟩

/-- `OnceError`. -/
inductive OnceError where
  | initializing
  | alreadyInit
  deriving DecidableEq, Repr

/-- Where a call of `set_with` is. `K` says where the function it was given is. -/
inductive SetWith (K T : Type) where
  /-- At the compare-exchange. -/
  | exchange (f : K)
  /-- The exchange went through and the function runs. -/
  | run (f : K)
  /-- The function has returned. -/
  | write (v : T)
  /-- The value is written. -/
  | store
  | done (r : Except OnceError Unit)
  /-- The panic `Unknown initialization state`. -/
  | unknown (other : UInt8)

/-- Where a call of `get` is. -/
inductive Get (T : Type) where
  | load
  | read
  | done (r : Option T)
  /-- It has read a value that was never written. -/
  | uninit
  deriving DecidableEq

variable {K T : Type}

/-- How `set_with` ends when it finds `other` instead of `0`. -/
def SetWith.refusal (other : UInt8) : SetWith K T :=
  if other = 1 then .done (.error .initializing)
  else if other = 2 then .done (.error .alreadyInit)
  else .unknown other

/-- A step of `set_with`, apart from those of its function. -/
def AtomicOnceCell.setWith (cell : AtomicOnceCell T) :
    SetWith K T → Option (AtomicOnceCell T × SetWith K T)
  | .exchange f =>
    match compareExchange cell.init 0 1 with
    | (init, .ok _) => some ({ cell with init := init }, .run f)
    | (init, .error other) => some ({ cell with init := init }, .refusal other)
  | .write v => some ({ cell with value := some v }, .store)
  | .store => some ({ cell with init := 2 }, .done (.ok ()))
  | .run _ => none
  | .done _ => none
  | .unknown _ => none

/-- A step of `get`, with `get_unchecked`. -/
def AtomicOnceCell.get (cell : AtomicOnceCell T) : Get T → Option (Get T)
  | .load => some (if cell.init = 2 then .read else .done none)
  | .read => some (cell.value.elim .uninit fun v => .done (some v))
  | .done _ => none
  | .uninit => none

/-! ### What one step does -/

/-- The steps of `set_with`. -/
inductive SetWith.Moves (cell : AtomicOnceCell T) :
    SetWith K T → AtomicOnceCell T → SetWith K T → Prop
  | won (f : K) (h : cell.init = 0) : Moves cell (.exchange f) { cell with init := 1 } (.run f)
  | lost (f : K) (h : cell.init ≠ 0) : Moves cell (.exchange f) cell (.refusal cell.init)
  | wrote (v : T) : Moves cell (.write v) { cell with value := some v } .store
  | stored : Moves cell .store { cell with init := 2 } (.done (.ok ()))

theorem AtomicOnceCell.moves_of_setWith {cell cell' : AtomicOnceCell T} {p p' : SetWith K T}
    (h : cell.setWith p = some (cell', p')) : p.Moves cell cell' p' := by
  cases p with
  | exchange f =>
    by_cases hinit : cell.init = 0
    · simp only [setWith, hinit, compareExchange_self, Option.some.injEq, Prod.mk.injEq] at h
      obtain ⟨rfl, rfl⟩ := h
      exact .won f hinit
    · simp only [setWith, compareExchange_of_ne _ hinit, Option.some.injEq, Prod.mk.injEq] at h
      obtain ⟨rfl, rfl⟩ := h
      exact .lost f hinit
  | write v =>
    simp only [setWith, Option.some.injEq, Prod.mk.injEq] at h
    obtain ⟨rfl, rfl⟩ := h
    exact .wrote v
  | store =>
    simp only [setWith, Option.some.injEq, Prod.mk.injEq] at h
    obtain ⟨rfl, rfl⟩ := h
    exact .stored
  | run f => simp [setWith] at h
  | done r => simp [setWith] at h
  | unknown other => simp [setWith] at h

/-- The steps of `get`. -/
inductive Get.Moves (cell : AtomicOnceCell T) : Get T → Get T → Prop
  | loaded (h : cell.init = 2) : Moves cell .load .read
  | missed (h : cell.init ≠ 2) : Moves cell .load (.done none)
  | read (v : T) (h : cell.value = some v) : Moves cell .read (.done (some v))
  | uninit (h : cell.value = none) : Moves cell .read .uninit

theorem AtomicOnceCell.moves_of_get {cell : AtomicOnceCell T} {p p' : Get T}
    (h : cell.get p = some p') : p.Moves cell p' := by
  cases p with
  | load =>
    simp only [get, Option.some.injEq] at h
    subst h
    split_ifs with hinit
    · exact .loaded hinit
    · exact .missed hinit
  | read =>
    cases hv : cell.value with
    | none =>
      simp only [get, hv, Option.elim, Option.some.injEq] at h
      exact h ▸ .uninit hv
    | some v =>
      simp only [get, hv, Option.elim, Option.some.injEq] at h
      exact h ▸ .read v hv
  | done r => simp [get] at h
  | uninit => simp [get] at h

/-- What a step of a client's call does to the cell and to the call's `set_with`, if it is in
one. -/
inductive OnceMove (cell : AtomicOnceCell T) :
    Option (SetWith K T) → AtomicOnceCell T → Option (SetWith K T) → Prop
  /-- A step of `set_with`. -/
  | set {p p' : SetWith K T} {cell' : AtomicOnceCell T} (h : p.Moves cell cell' p') :
      OnceMove cell (some p) cell' (some p')
  /-- A step of its function. -/
  | ran (f f' : K) : OnceMove cell (some (.run f)) cell (some (.run f'))
  /-- The function returns. -/
  | returned (f : K) (v : T) : OnceMove cell (some (.run f)) cell (some (.write v))
  /-- A call of `set_with`. -/
  | called (f : K) : OnceMove cell none cell (some (.exchange f))
  /-- Anything else that leaves the cell alone. -/
  | other (p : Option (SetWith K T)) : OnceMove cell p cell p
  /-- An assignment through the reference that `get_mut` returns. -/
  | assigned (p : Option (SetWith K T)) (v : T) :
      OnceMove cell p { cell with value := some v } p

/-- Between the compare-exchange that went through and the store. -/
def Initializing : Option (SetWith K T) → Prop
  | some (.run _) => True
  | some (.write _) => True
  | some .store => True
  | _ => False

/-- The compare-exchange went through. -/
def Won : Option (SetWith K T) → Prop
  | some (.run _) => True
  | some (.write _) => True
  | some .store => True
  | some (.done (.ok _)) => True
  | _ => False

/-- The value is written. -/
def Wrote : Option (SetWith K T) → Prop
  | some .store => True
  | some (.done (.ok _)) => True
  | _ => False

/-- The states that `init` can be in, and how it can move. -/
def Forward (i j : UInt8) : Prop := j = i ∨ (i = 0 ∧ j = 1) ∨ (i = 1 ∧ j = 2)

theorem Forward.eq_zero {i j : UInt8} (h : Forward i j) (hj : j = 0) : i = 0 := by
  rcases h with hsame | ⟨hzero, _⟩ | ⟨_, htwo⟩
  · exact hsame ▸ hj
  · exact hzero
  · simp [hj] at htwo

theorem Forward.eq_two {i j : UInt8} (h : Forward i j) (hi : i = 2) : j = 2 := by
  rcases h with hsame | ⟨hzero, _⟩ | ⟨_, htwo⟩
  · exact hsame.trans hi
  · simp [hi] at hzero
  · exact htwo

/-! ### What a step of a client does -/

section Move

variable {cell cell' : AtomicOnceCell T} {p p' : Option (SetWith K T)}

theorem SetWith.refusal_ne_unknown {i other : UInt8} (h : i = 1 ∨ i = 2) :
    (refusal i : SetWith K T) ≠ .unknown other := by
  rcases h with rfl | rfl <;> simp [refusal]

theorem SetWith.not_won_refusal (i : UInt8) : ¬ Won (some (refusal i : SetWith K T)) := by
  unfold refusal
  split_ifs <;> simp [Won]

theorem Won.of_initializing (h : Initializing p) : Won p := by
  unfold Initializing at h
  split at h <;> simp_all [Won]

theorem Won.of_wrote (h : Wrote p) : Won p := by
  unfold Wrote at h
  split at h <;> simp_all [Won]

/-- The winner is still initialising, or has returned. -/
theorem Won.cases (h : Won p) : Initializing p ∨ p = some (.done (.ok ())) := by
  unfold Won at h
  split at h <;> simp_all [Initializing]

/-- A step is one of `set_with`, or it leaves `init` alone and the call on the same side of the
compare-exchange and of the store. -/
theorem OnceMove.set_or_quiet (h : OnceMove cell p cell' p') :
    (∃ q q', p = some q ∧ p' = some q' ∧ q.Moves cell cell' q') ∨
      cell'.init = cell.init ∧ (Initializing p' ↔ Initializing p) ∧ (Won p' ↔ Won p) := by
  cases h with
  | set h => exact Or.inl ⟨_, _, rfl, rfl, h⟩
  | ran f f' => exact Or.inr ⟨rfl, Iff.rfl, Iff.rfl⟩
  | returned f v => exact Or.inr ⟨rfl, Iff.rfl, Iff.rfl⟩
  | called f => exact Or.inr ⟨rfl, Iff.rfl, Iff.rfl⟩
  | other p => exact Or.inr ⟨rfl, Iff.rfl, Iff.rfl⟩
  | assigned p v => exact Or.inr ⟨rfl, Iff.rfl, Iff.rfl⟩

theorem OnceMove.passes_one (h : OnceMove cell p cell' p') :
    Passes (cell.init = 1) (cell'.init = 1) (Initializing p) (Initializing p') := by
  rcases h.set_or_quiet with ⟨q, q', rfl, rfl, hq⟩ | ⟨hinit, hone, _⟩
  · cases hq with
    | won f h0 => exact .take (by simp [h0]) rfl trivial
    | lost f h0 =>
      refine .keep Iff.rfl (iff_of_false (fun hin => ?_) id)
      exact SetWith.not_won_refusal _ (.of_initializing hin)
    | wrote v => exact .keep Iff.rfl Iff.rfl
    | stored => exact .give trivial (by simp) id
  · exact .keep (by rw [hinit]) hone

theorem OnceMove.passes_winner (h : OnceMove cell p cell' p') (hin : Won p → cell.init ≠ 0) :
    Passes (cell.init ≠ 0) (cell'.init ≠ 0) (Won p) (Won p') := by
  rcases h.set_or_quiet with ⟨q, q', rfl, rfl, hq⟩ | ⟨hinit, _, hwon⟩
  · cases hq with
    | won f h0 => exact .take (by simp [h0]) (by simp) trivial
    | lost f h0 => exact .keep Iff.rfl (iff_of_false (SetWith.not_won_refusal _) id)
    | wrote v => exact .keep Iff.rfl Iff.rfl
    | stored => exact .keep (iff_of_true (by simp) (hin trivial)) Iff.rfl
  · exact .keep (by rw [hinit]) hwon

/-- `init` only moves forward. -/
theorem OnceMove.forward (h : OnceMove cell p cell' p') (hin : Initializing p → cell.init = 1) :
    Forward cell.init cell'.init := by
  rcases h.set_or_quiet with ⟨q, q', rfl, rfl, hq⟩ | ⟨hinit, _, _⟩
  · cases hq with
    | won f h0 => exact Or.inr (Or.inl ⟨h0, rfl⟩)
    | lost f h0 => exact Or.inl rfl
    | wrote v => exact Or.inl rfl
    | stored => exact Or.inr (Or.inr ⟨hin trivial, rfl⟩)
  · exact Or.inl hinit

/-- Whoever has won stays the winner. -/
theorem OnceMove.won (h : OnceMove cell p cell' p') (hw : Won p) : Won p' := by
  rcases h.set_or_quiet with ⟨q, q', rfl, rfl, hq⟩ | ⟨_, _, hwon⟩
  · cases hq with
    | won f h0 => trivial
    | lost f h0 => exact absurd hw id
    | wrote v => trivial
    | stored => trivial
  · exact hwon.mpr hw

/-- A value that was written stays. -/
theorem OnceMove.isSome (h : OnceMove cell p cell' p') (hv : cell.value.isSome) :
    cell'.value.isSome := by
  cases h with
  | set h => cases h <;> first | exact hv | rfl
  | assigned p v => rfl
  | _ => exact hv

theorem OnceMove.written (h : OnceMove cell p cell' p') (hw : Wrote p → cell.value.isSome)
    (hw' : Wrote p') : cell'.value.isSome := by
  cases h with
  | set h =>
    cases h with
    | won f h0 => exact absurd hw' id
    | lost f h0 => exact absurd (Won.of_wrote hw') (SetWith.not_won_refusal _)
    | wrote v => rfl
    | stored => exact hw trivial
  | ran f f' => exact absurd hw' id
  | returned f v => exact absurd hw' id
  | called f => exact absurd hw' id
  | other p => exact hw hw'
  | assigned p v => rfl

/-- The exchange finds `1` or `2` where it fails. -/
theorem OnceMove.known (h : OnceMove cell p cell' p')
    (hstates : cell.init = 0 ∨ cell.init = 1 ∨ cell.init = 2)
    (hp : ∀ other, p ≠ some (.unknown other)) (other : UInt8) : p' ≠ some (.unknown other) := by
  cases h with
  | set h =>
    cases h with
    | lost f h0 =>
      have hne : (SetWith.refusal cell.init : SetWith K T) ≠ .unknown other :=
        SetWith.refusal_ne_unknown (hstates.resolve_left h0)
      exact fun heq => hne (Option.some.inj heq)
    | _ => simp
  | other p => exact hp other
  | assigned p v => exact hp other
  | _ => simp

end Move

/-! ### Every client of the cell -/

section Client

variable {C M P A : Type} {code : Code C M P A}
  {cellOf : M → AtomicOnceCell T} {setOf : P → Option (SetWith K T)}
  {s t : Calls C M P} {c d : C} {a : A}

/-- The calls touch the cell only by the steps of `set_with`, and through `get_mut`. -/
def OnceClient (cellOf : M → AtomicOnceCell T) (setOf : P → Option (SetWith K T))
    (code : Code C M P A) : Prop :=
  ∀ c m p a m' p', code c m p a = some (m', p') →
    OnceMove (cellOf m) (setOf p) (cellOf m') (setOf p')

/-- What holds of the cell in every reachable state. -/
structure OnceInv (cellOf : M → AtomicOnceCell T) (setOf : P → Option (SetWith K T))
    (s : Calls C M P) : Prop where
  /-- One call initialises, exactly while `init` is `1`. -/
  one : OneHolder (fun m => (cellOf m).init = 1) (fun p => Initializing (setOf p)) s
  /-- One call has won, exactly when `init` is not `0`. -/
  winner : OneHolder (fun m => (cellOf m).init ≠ 0) (fun p => Won (setOf p)) s
  /-- `init` has one of its three states. -/
  states : (cellOf s.mem).init = 0 ∨ (cellOf s.mem).init = 1 ∨ (cellOf s.mem).init = 2
  /-- No `set_with` has found another. -/
  known : ∀ c other, setOf (s.pc c) ≠ some (.unknown other)
  /-- A call that has written has left a value. -/
  written : ∀ c, Wrote (setOf (s.pc c)) → (cellOf s.mem).value.isSome

/-- Before the first step. -/
theorem OnceInv.start (hcell : cellOf s.mem = .new)
    (hpc : ∀ c, setOf (s.pc c) = none ∨ ∃ f, setOf (s.pc c) = some (.exchange f)) :
    OnceInv cellOf setOf s := by
  have hnot : ∀ c, ¬ Won (setOf (s.pc c)) := by
    intro c hc
    rcases hpc c with h | ⟨f, h⟩ <;> simp [h, Won] at hc
  refine ⟨⟨iff_of_false ?_ ?_, ?_⟩, ⟨iff_of_false ?_ ?_, ?_⟩, ?_, ?_, ?_⟩
  · simp [hcell, AtomicOnceCell.new]
  · exact fun hex => hex.elim fun c hc => hnot c (.of_initializing hc)
  · exact fun c d hc _ => absurd (Won.of_initializing hc) (hnot c)
  · simp [hcell, AtomicOnceCell.new]
  · exact fun hex => hex.elim hnot
  · exact fun c d hc _ => absurd hc (hnot c)
  · exact Or.inl (by rw [hcell]; rfl)
  · intro c other
    rcases hpc c with h | ⟨f, h⟩ <;> simp [h]
  · exact fun c hc => absurd (Won.of_wrote hc) (hnot c)

/-- Where the cell is initialised the winner has returned. -/
theorem OnceInv.exists_winner (h : OnceInv cellOf setOf s) (htwo : (cellOf s.mem).init = 2) :
    ∃ w, setOf (s.pc w) = some (.done (.ok ())) := by
  obtain ⟨w, hw⟩ := h.winner.1.mp (by simp [htwo])
  refine ⟨w, (Won.cases hw).resolve_left fun hin => ?_⟩
  have hone := h.one.taken_of_holds hin
  simp [htwo] at hone

/-- An initialised cell has a value. -/
theorem OnceInv.isSome (h : OnceInv cellOf setOf s) (htwo : (cellOf s.mem).init = 2) :
    (cellOf s.mem).value.isSome := by
  obtain ⟨w, hw⟩ := h.exists_winner htwo
  exact h.written w (by rw [hw]; trivial)

variable [DecidableEq C]

/-- **The rule for one step.** -/
theorem OnceInv.step (hcode : OnceClient cellOf setOf code) (h : OnceInv cellOf setOf s)
    (hs : Calls.Step code s (c, a) t) : OnceInv cellOf setOf t := by
  have hmove := hcode c _ _ a _ _ hs.own
  refine ⟨h.one.step hs hmove.passes_one,
    h.winner.step hs (hmove.passes_winner h.winner.taken_of_holds), ?_, ?_, ?_⟩
  · rcases hmove.forward h.one.taken_of_holds with hsame | ⟨_, hone⟩ | ⟨_, htwo⟩
    · rw [hsame]
      exact h.states
    · exact Or.inr (Or.inl hone)
    · exact Or.inr (Or.inr htwo)
  · exact hs.forall_pc (fun _ p => ∀ other, setOf p ≠ some (.unknown other))
      (hmove.known h.states (h.known c)) fun d _ => h.known d
  · exact hs.forall_pc (fun _ p => Wrote (setOf p) → (cellOf t.mem).value.isSome)
      (hmove.written (h.written c)) fun d _ hd => hmove.isSome (h.written d hd)

end Client

/-! ### The calls of the cell itself -/

section Once

variable {C : Type}

/-- A call on the cell. -/
inductive OnceCall (T : Type) where
  | set (value : T)
  | setWith (f : Unit → T)
  | get

/-- Where such a call is. -/
inductive OncePc (T : Type) where
  | set (p : SetWith (Unit → T) T)
  | get (p : Get T)

/-- Where a call starts. `set` is `set_with` of the function that returns its value. -/
def OnceCall.start : OnceCall T → OncePc T
  | .set value => .set (.exchange fun _ => value)
  | .setWith f => .set (.exchange f)
  | .get => .get .load

/-- The value a call wants the cell to have. -/
def OnceCall.wants : OnceCall T → Option T
  | .set value => some value
  | .setWith f => some (f ())
  | .get => none

/-- The `set_with` a call is in. -/
def OncePc.setOf : OncePc T → Option (SetWith (Unit → T) T)
  | .set p => some p
  | .get _ => none

/-- A step of a call. -/
def onceCode : Code C (AtomicOnceCell T) (OncePc T) Unit := fun _ cell p _ =>
  match p with
  | .set (.run f) => some (cell, .set (.write (f ())))
  | .set p => (cell.setWith p).map fun r => (r.1, .set r.2)
  | .get p => (cell.get p).map fun p' => (cell, .get p')

/-- A new cell and the calls that will be made on it. -/
def onceStart (prog : C → OnceCall T) : Calls C (AtomicOnceCell T) (OncePc T) :=
  ⟨.new, fun c => (prog c).start⟩

/-- The steps of the calls. -/
inductive OncePc.Moves (cell : AtomicOnceCell T) :
    OncePc T → AtomicOnceCell T → OncePc T → Prop
  | set {p p' : SetWith (Unit → T) T} {cell' : AtomicOnceCell T} (h : p.Moves cell cell' p') :
      Moves cell (.set p) cell' (.set p')
  | returned (f : Unit → T) : Moves cell (.set (.run f)) cell (.set (.write (f ())))
  | get {p p' : Get T} (h : p.Moves cell p') : Moves cell (.get p) cell (.get p')

theorem onceCode_moves {c : C} {cell cell' : AtomicOnceCell T} {p p' : OncePc T} {a : Unit}
    (h : onceCode c cell p a = some (cell', p')) : p.Moves cell cell' p' := by
  cases p with
  | set p =>
    cases p with
    | run f =>
      simp only [onceCode, Option.some.injEq, Prod.mk.injEq] at h
      obtain ⟨rfl, rfl⟩ := h
      exact .returned f
    | _ =>
      simp only [onceCode, Option.map_eq_some_iff, Prod.mk.injEq] at h
      obtain ⟨r, hr, rfl, rfl⟩ := h
      exact .set (AtomicOnceCell.moves_of_setWith hr)
  | get p =>
    simp only [onceCode, Option.map_eq_some_iff, Prod.mk.injEq] at h
    obtain ⟨q, hq, rfl, rfl⟩ := h
    exact .get (AtomicOnceCell.moves_of_get hq)

theorem onceClient : OnceClient id OncePc.setOf (onceCode (C := C) (T := T)) := by
  intro c cell p a cell' p' h
  cases onceCode_moves h with
  | set hset => exact .set hset
  | returned f => exact .returned f _
  | _ => exact .other _

theorem onceInv_start (prog : C → OnceCall T) : OnceInv id OncePc.setOf (onceStart prog) := by
  refine OnceInv.start rfl fun c => ?_
  cases h : prog c with
  | set value => exact Or.inr ⟨fun _ => value, by simp [onceStart, h, OnceCall.start, OncePc.setOf]⟩
  | setWith f => exact Or.inr ⟨f, by simp [onceStart, h, OnceCall.start, OncePc.setOf]⟩
  | get => exact Or.inl (by simp [onceStart, h, OnceCall.start, OncePc.setOf])

/-- What the point of a call says about the cell, with the value the call wants it to have. -/
def Agrees (wants : Option T) (cell : AtomicOnceCell T) : OncePc T → Prop
  | .set (.exchange f) => wants = some (f ())
  | .set (.run f) => wants = some (f ())
  | .set (.write v) => wants = some v
  | .set .store => cell.value = wants
  | .set (.done (.ok _)) => cell.value = wants
  | .set (.done (.error _)) => True
  | .set (.unknown _) => True
  | .get .load => True
  | .get .read => cell.init = 2
  | .get (.done none) => True
  | .get (.done (some v)) => cell.init = 2 ∧ cell.value = some v
  | .get .uninit => False

section Point

variable {cell cell' : AtomicOnceCell T} {p p' : OncePc T} {wants : Option T}

/-- Only the winner's steps touch the cell. -/
theorem OncePc.Moves.mem_eq (h : p.Moves cell cell' p') (hnot : ¬ Won p'.setOf) : cell' = cell := by
  cases h with
  | set h =>
    cases h with
    | won f h0 => exact absurd trivial hnot
    | lost f h0 => rfl
    | wrote v => exact absurd trivial hnot
    | stored => exact absurd trivial hnot
  | _ => rfl

/-- Nothing touches the cell once it is initialised. -/
theorem OncePc.Moves.mem_eq_of_two (h : p.Moves cell cell' p')
    (hin : Initializing p.setOf → cell.init = 1) (htwo : cell.init = 2) : cell' = cell := by
  have hout : ¬ Initializing p.setOf := fun hinit => by simp [htwo] at hin; exact hin hinit
  cases h with
  | set h =>
    cases h with
    | won f h0 => simp [htwo] at h0
    | lost f h0 => rfl
    | wrote v => exact absurd trivial hout
    | stored => exact absurd trivial hout
  | _ => rfl

/-- A load of `init` finds an initialised cell. -/
theorem OncePc.Moves.not_missed (h : p.Moves cell cell' p') (htwo : cell.init = 2)
    (hp : p ≠ .get (.done none)) : p' ≠ .get (.done none) := by
  cases h with
  | get h =>
    cases h with
    | missed h => exact absurd htwo h
    | _ => simp
  | _ => simp

theorem agrees_refusal (i : UInt8) : Agrees wants cell (.set (.refusal i)) := by
  unfold SetWith.refusal
  split_ifs <;> trivial

/-- The call that takes the step. -/
theorem Agrees.own (hagree : Agrees wants cell p) (h : p.Moves cell cell' p')
    (hsome : cell.init = 2 → cell.value.isSome) : Agrees wants cell' p' := by
  cases h with
  | set h =>
    cases h with
    | won f h0 => exact hagree
    | lost f h0 => exact agrees_refusal _
    | wrote v => exact hagree.symm
    | stored => exact hagree
  | returned f => exact hagree
  | get h =>
    cases h with
    | loaded h => exact h
    | missed h => trivial
    | read v h => exact ⟨hagree, h⟩
    | uninit h => simpa [h] using hsome hagree

/-- Another call. -/
theorem Agrees.other (hagree : Agrees wants cell p) (htwo : cell.init = 2 → cell' = cell)
    (hwon : Won p.setOf → cell' = cell) : Agrees wants cell' p := by
  cases p with
  | set p =>
    cases p with
    | store => exact hwon trivial ▸ hagree
    | done r =>
      cases r with
      | error e => trivial
      | ok u => exact hwon trivial ▸ hagree
    | _ => exact hagree
  | get p =>
    cases p with
    | load => trivial
    | read => exact htwo hagree ▸ hagree
    | done r =>
      cases r with
      | none => trivial
      | some v => exact htwo hagree.1 ▸ hagree
    | uninit => exact hagree

end Point

variable {prog : C → OnceCall T} {s t : Calls C (AtomicOnceCell T) (OncePc T)}
  {ls : List (C × Unit)}

/-- What holds in every reachable state. -/
def OnceReached (prog : C → OnceCall T) (s : Calls C (AtomicOnceCell T) (OncePc T)) : Prop :=
  OnceInv id OncePc.setOf s ∧ ∀ c, Agrees (prog c).wants s.mem (s.pc c)

theorem onceReached_start (prog : C → OnceCall T) : OnceReached prog (onceStart prog) := by
  refine ⟨onceInv_start prog, fun c => ?_⟩
  cases h : prog c <;> simp [onceStart, h, OnceCall.start, OnceCall.wants, Agrees]

/-- The cell after the winner has returned. -/
theorem OnceReached.mem_of_ok {c : C} (h : OnceReached prog s)
    (hc : s.pc c = .set (.done (.ok ()))) : s.mem = ⟨(prog c).wants, 2⟩ := by
  have hwon : Won (s.pc c).setOf := by
    rw [hc]
    trivial
  have htwo : s.mem.init = 2 := by
    rcases h.1.states with h0 | h1 | h2
    · exact absurd h0 (h.1.winner.taken_of_holds hwon)
    · -- somebody initialises, and it can only be the winner
      obtain ⟨d, hd⟩ := h.1.one.1.mp h1
      obtain rfl := h.1.winner.2 c d hwon (.of_initializing hd)
      rw [hc] at hd
      exact absurd hd id
    · exact h2
  have hvalue := h.2 c
  rw [hc] at hvalue
  exact AtomicOnceCell.ext hvalue htwo

/-- A `get` that has returned a value. -/
theorem OnceReached.of_got {g : C} {v : T} (h : OnceReached prog s)
    (hg : s.pc g = .get (.done (some v))) :
    s.mem = ⟨some v, 2⟩ ∧ ∃ w, s.pc w = .set (.done (.ok ())) ∧ (prog w).wants = some v := by
  have hgot := h.2 g
  rw [hg] at hgot
  have hmem : s.mem = ⟨some v, 2⟩ := AtomicOnceCell.ext hgot.2 hgot.1
  obtain ⟨w, hw⟩ := h.1.exists_winner hgot.1
  have hpc : s.pc w = .set (.done (.ok ())) := by
    cases hp : s.pc w with
    | set p =>
      rw [hp] at hw
      rw [Option.some.inj hw]
    | get p => simp [hp, OncePc.setOf] at hw
  refine ⟨hmem, w, hpc, ?_⟩
  have hwants := h.mem_of_ok hpc
  rw [hmem] at hwants
  exact (congrArg AtomicOnceCell.value hwants).symm

variable [DecidableEq C]

theorem OnceReached.step {l : C × Unit} (h : OnceReached prog s)
    (hs : Calls.Step onceCode s l t) : OnceReached prog t := by
  have hinv := h.1.step onceClient hs
  have hmove := onceCode_moves hs.own
  refine ⟨hinv, hs.forall_pc (fun c p => Agrees (prog c).wants t.mem p)
    ((h.2 l.1).own hmove h.1.isSome) fun d hd => (h.2 d).other ?_ fun hwon => hmove.mem_eq ?_⟩
  · exact hmove.mem_eq_of_two h.1.one.taken_of_holds
  · -- the winner is `d`, so it is not the call that moves
    intro hwon'
    exact hd (hinv.winner.2 d l.1 (by rwa [hs.other hd]) hwon')

theorem OnceReached.run (r : Run (Calls.Step onceCode) s ls t) (h : OnceReached prog s) :
    OnceReached prog t := r.invariant _ (fun _ _ _ hI hs => hI.step hs) h

/-- The winner stays the winner. -/
theorem won_run {c : C} (r : Run (Calls.Step onceCode) s ls t) (h : Won (s.pc c).setOf) :
    Won (t.pc c).setOf := by
  refine r.invariant (fun s => Won (s.pc c).setOf) (fun s l t hwon hs => ?_) h
  exact hs.forall_pc (fun d p => Won (s.pc d).setOf → Won p.setOf)
    (onceClient _ _ _ _ _ _ hs.own).won (fun _ _ => id) c hwon

/-- An initialised cell stays as it is. -/
theorem OnceReached.run_mem (h : OnceReached prog s) (htwo : s.mem.init = 2)
    (r : Run (Calls.Step onceCode) s ls t) : t.mem = s.mem := by
  refine (r.invariant (fun u => OnceReached prog u ∧ u.mem = s.mem) (fun u l v hu hs => ?_)
    ⟨h, rfl⟩).2
  refine ⟨hu.1.step hs, ?_⟩
  rw [← hu.2]
  exact (onceCode_moves hs.own).mem_eq_of_two hu.1.1.one.taken_of_holds (hu.2 ▸ htwo)

/-- A `get` that has not returned when the cell is initialised does not miss. -/
theorem OnceReached.run_get {g : C} (h : OnceReached prog s) (htwo : s.mem.init = 2)
    (hg : s.pc g ≠ .get (.done none)) (r : Run (Calls.Step onceCode) s ls t) :
    t.pc g ≠ .get (.done none) := by
  refine (r.invariant (fun u => OnceReached prog u ∧ u.mem.init = 2 ∧ u.pc g ≠ .get (.done none))
    (fun u l v hu hs => ?_) ⟨h, htwo, hg⟩).2.2
  obtain ⟨hu, hinit, hne⟩ := hu
  have hmove := onceCode_moves hs.own
  refine ⟨hu.step hs, by rw [hmove.mem_eq_of_two hu.1.one.taken_of_holds hinit, hinit], ?_⟩
  exact hs.forall_pc (fun d p => u.pc d ≠ .get (.done none) → p ≠ .get (.done none))
    (hmove.not_missed hinit) (fun _ _ => id) g hne

/-- **The cell is written once.** In every state that calls of `set`, `set_with` and `get` can
reach, in any number and any interleaving:

* a step moves `init` from `0` to `1`, from `1` to `2`, or not at all;
* no call has panicked on an unknown state of `init`;
* one call at most has run its function or is running it, and a call that returned `Ok` has;
* a `set_with` that has returned has returned `Ok`, and the cell then has its value, or it has
  returned an error and none of its steps has touched the cell;
* no `get` has read an uninitialised value;
* a `get` that has returned a value comes after the winner's return, and it is the winner's value;
* a `get` that has not loaded `init` before another returned a value returns the same value. -/
theorem once_cell_set_once (prog : C → OnceCall T)
    (r : Run (Calls.Step onceCode) (onceStart prog) ls s) :
    (∀ l t, Calls.Step onceCode s l t → Forward s.mem.init t.mem.init) ∧
    (∀ c other, s.pc c ≠ .set (.unknown other)) ∧
    (∀ c d, Won (s.pc c).setOf → Won (s.pc d).setOf → c = d) ∧
    (∀ c res, s.pc c = .set (.done res) →
      res = .ok () ∧ s.mem = ⟨(prog c).wants, 2⟩ ∨
      ∃ e, res = .error e ∧ ∀ pre post u v, ls = pre ++ (c, ()) :: post →
        Run (Calls.Step onceCode) (onceStart prog) pre u → Calls.Step onceCode u (c, ()) v →
        Run (Calls.Step onceCode) v post s → v.mem = u.mem) ∧
    (∀ g, s.pc g ≠ .get .uninit) ∧
    (∀ g v, s.pc g = .get (.done (some v)) →
      s.mem = ⟨some v, 2⟩ ∧ ∃ w, s.pc w = .set (.done (.ok ())) ∧ (prog w).wants = some v) ∧
    (∀ g v g' ms t res, s.pc g = .get (.done (some v)) → s.pc g' = .get .load →
      Run (Calls.Step onceCode) s ms t → t.pc g' = .get (.done res) → res = some v) := by
  have hs := (onceReached_start prog).run r
  refine ⟨fun l t hst => ?_, fun c other hc => ?_, hs.1.winner.2,
    fun c res hc => ?_, fun g hg => ?_,
    fun g v hg => hs.of_got hg, fun g v g' ms t res hg hg' r' hres => ?_⟩
  · exact (onceClient _ _ _ _ _ _ hst.own).forward hs.1.one.taken_of_holds
  · exact hs.1.known c other (by rw [hc]; rfl)
  · cases res with
    | ok u => exact Or.inl ⟨rfl, hs.mem_of_ok hc⟩
    | error e =>
      refine Or.inr ⟨e, rfl, fun pre post u v _ _ huv rpost => ?_⟩
      refine (onceCode_moves huv.own).mem_eq fun hwon => ?_
      -- whoever touches the cell has won and does not return an error
      have hend := won_run rpost hwon
      rw [hc] at hend
      exact hend
  · have hagree := hs.2 g
    rw [hg] at hagree
    exact hagree
  · have htwo : s.mem.init = 2 := by rw [(hs.of_got hg).1]
    cases res with
    | none => exact absurd hres (hs.run_get htwo (by simp [hg']) r')
    | some v' =>
      have hmem := ((hs.run r').of_got hres).1
      rw [hs.run_mem htwo r', (hs.of_got hg).1] at hmem
      exact (congrArg AtomicOnceCell.value hmem).symm

/-- Two setters and a reader. -/
def twoSetters : Fin 3 → OnceCall Nat := fun c =>
  if c = 0 then .set 7 else if c = 1 then .set 8 else .get

/-- The second setter wins, the first one comes while it initialises, and the reader gets `8`. -/
theorem once_cell_set_once_twoSetters :
    ∃ s, Run (Calls.Step onceCode) (onceStart twoSetters)
        [(1, ()), (0, ()), (1, ()), (1, ()), (1, ()), (2, ()), (2, ())] s ∧
      s.pc 0 = .set (.done (.error .initializing)) ∧ s.pc 2 = .get (.done (some 8)) ∧
      s.mem = ⟨some 8, 2⟩ ∧
        ∃ w, s.pc w = .set (.done (.ok ())) ∧ (twoSetters w).wants = some 8 := by
  have hrun : ∃ s, Run (Calls.Step onceCode) (onceStart twoSetters)
      [(1, ()), (0, ()), (1, ()), (1, ()), (1, ()), (2, ()), (2, ())] s ∧
      s.pc 0 = .set (.done (.error .initializing)) ∧ s.pc 2 = .get (.done (some 8)) :=
    ⟨_, Calls.run_of_exec rfl, rfl, rfl⟩
  obtain ⟨s, r, h0, h2⟩ := hrun
  exact ⟨s, r, h0, h2, (once_cell_set_once twoSetters r).2.2.2.2.2.1 2 8 h2⟩

end Once

end Harmony
