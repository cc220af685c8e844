import Harmony.Lib.Interleaving

/-!
# `AtomicRefCell`: one borrow at a time

The model follows `sync/src/cell/atomic_ref_cell.rs`. A call of `borrow` or `borrow_mut` is followed
through the life of the guard it returns: the compare-exchange of the state byte, the building of
the guard, any number of `map`s, and the drop with its swap and its assertion. The compare-exchange
and the swap are one step each, and so is everything a guard does in between.

A guard is alive from the compare-exchange that grants it to the swap that gives it back
(`BorrowPc.Alive`). The state byte says whether one is: `ref_cell_one_guard`.
-/

namespace Harmony

open Lib

/-! ### The cell -/

/-- `State::FREE`. -/
def stateFree : UInt8 := 0

/-- `State::BORROWED`. -/
def stateBorrowed : UInt8 := 1

/-- `BorrowError`. -/
inductive BorrowError where
  | alreadyBorrowed
  deriving DecidableEq, Repr

/-- `State::try_borrow`: the state byte after it, and the result. -/
def tryBorrow (state : UInt8) : UInt8 × Except BorrowError Unit :=
  match compareExchange state stateFree stateBorrowed with
  | (state, .ok _) => (state, .ok ())
  | (state, .error _) => (state, .error .alreadyBorrowed)

/-- The swap of `State::drop_borrow`: the state byte after it, and what was there. -/
def dropBorrow (state : UInt8) : UInt8 × UInt8 := (stateFree, state)

/-- `AtomicRefCell`: where its data is, and the state byte. -/
structure AtomicRefCell (Ptr : Type) where
  data : Ptr
  state : UInt8

/-- `AtomicRefCell::new`. -/
def AtomicRefCell.new {Ptr : Type} (data : Ptr) : AtomicRefCell Ptr := ⟨data, stateFree⟩

/-- `Ref` or `RefMut`. -/
inductive GuardKind where
  | ref
  | refMut
  deriving DecidableEq, Repr

/-- A guard. Its borrow is that of the cell. -/
structure Guard (Ptr : Type) where
  kind : GuardKind
  value : Ptr

/-- Where a call of `borrow` or `borrow_mut`, or the guard it has returned, is. -/
inductive BorrowPc (Ptr : Type) where
  /-- At the compare-exchange. -/
  | borrow (kind : GuardKind)
  /-- It has returned `AlreadyBorrowed`. -/
  | refused
  /-- The borrow is granted and the guard is being built. -/
  | granted (kind : GuardKind)
  | alive (guard : Guard Ptr)
  /-- In `map`, which runs `f` on the guard's pointer. -/
  | mapping (guard : Guard Ptr) (f : Ptr → Ptr)
  /-- At the swap of the drop. -/
  | dropping
  /-- At the assertion of the drop, with what the swap found. -/
  | swapped (old : UInt8)
  | dropped
  /-- The assertion has failed. -/
  | failed

/-- A call goes on, or the owner of the guard uses it. -/
inductive BorrowAct (Ptr : Type) where
  | go
  | map (f : Ptr → Ptr)
  | drop
  /-- The function given to `map` panics, and the guard is dropped on the way out. -/
  | unwind

variable {Ptr : Type}

/-- A step of a call or of its guard. -/
def AtomicRefCell.next (cell : AtomicRefCell Ptr) :
    BorrowPc Ptr → BorrowAct Ptr → Option (AtomicRefCell Ptr × BorrowPc Ptr)
  | .borrow kind, .go =>
    match tryBorrow cell.state with
    | (state, .ok _) => some ({ cell with state := state }, .granted kind)
    | (state, .error _) => some ({ cell with state := state }, .refused)
  | .granted kind, .go => some (cell, .alive ⟨kind, cell.data⟩)
  | .alive guard, .map f => some (cell, .mapping guard f)
  | .mapping guard f, .go => some (cell, .alive ⟨guard.kind, f guard.value⟩)
  | .mapping _ _, .unwind => some (cell, .dropping)
  | .alive _, .drop => some (cell, .dropping)
  | .dropping, .go =>
    some ({ cell with state := (dropBorrow cell.state).1 }, .swapped (dropBorrow cell.state).2)
  | .swapped old, .go => some (cell, if old = stateBorrowed then .dropped else .failed)
  | _, _ => none

/-- The guard is alive. -/
def BorrowPc.Alive : BorrowPc Ptr → Prop
  | .granted _ => True
  | .alive _ => True
  | .mapping _ _ => True
  | .dropping => True
  | _ => False

/-! ### What one step does -/

/-- The steps of a call and its guard. -/
inductive BorrowPc.Moves (cell : AtomicRefCell Ptr) :
    BorrowPc Ptr → BorrowAct Ptr → AtomicRefCell Ptr → BorrowPc Ptr → Prop
  | granted (kind : GuardKind) (h : cell.state = stateFree) :
      Moves cell (.borrow kind) .go { cell with state := stateBorrowed } (.granted kind)
  | refused (kind : GuardKind) (h : cell.state ≠ stateFree) :
      Moves cell (.borrow kind) .go cell .refused
  | built (kind : GuardKind) : Moves cell (.granted kind) .go cell (.alive ⟨kind, cell.data⟩)
  | map (guard : Guard Ptr) (f : Ptr → Ptr) :
      Moves cell (.alive guard) (.map f) cell (.mapping guard f)
  | mapped (guard : Guard Ptr) (f : Ptr → Ptr) :
      Moves cell (.mapping guard f) .go cell (.alive ⟨guard.kind, f guard.value⟩)
  | unwound (guard : Guard Ptr) (f : Ptr → Ptr) :
      Moves cell (.mapping guard f) .unwind cell .dropping
  | drop (guard : Guard Ptr) : Moves cell (.alive guard) .drop cell .dropping
  | swapped : Moves cell .dropping .go { cell with state := stateFree } (.swapped cell.state)
  | dropped (old : UInt8) (h : old = stateBorrowed) : Moves cell (.swapped old) .go cell .dropped
  | failed (old : UInt8) (h : old ≠ stateBorrowed) : Moves cell (.swapped old) .go cell .failed

section Point

variable {cell cell' : AtomicRefCell Ptr} {p p' : BorrowPc Ptr} {a : BorrowAct Ptr}

theorem AtomicRefCell.moves_of_next (h : cell.next p a = some (cell', p')) :
    p.Moves cell a cell' p' := by
  cases p with
  | borrow kind =>
    cases a with
    | go =>
      by_cases hfree : cell.state = stateFree
      · simp only [next, tryBorrow, hfree, compareExchange_self, Option.some.injEq,
          Prod.mk.injEq] at h
        obtain ⟨rfl, rfl⟩ := h
        exact .granted kind hfree
      · simp only [next, tryBorrow, compareExchange_of_ne _ hfree, Option.some.injEq,
          Prod.mk.injEq] at h
        obtain ⟨rfl, rfl⟩ := h
        exact .refused kind hfree
    | _ => simp [next] at h
  | granted kind =>
    cases a with
    | go =>
      obtain ⟨rfl, rfl⟩ := Prod.mk.inj (Option.some.inj h)
      exact .built kind
    | _ => simp [next] at h
  | alive guard =>
    cases a with
    | map f =>
      obtain ⟨rfl, rfl⟩ := Prod.mk.inj (Option.some.inj h)
      exact .map guard f
    | drop =>
      obtain ⟨rfl, rfl⟩ := Prod.mk.inj (Option.some.inj h)
      exact .drop guard
    | _ => simp [next] at h
  | mapping guard f =>
    cases a with
    | go =>
      obtain ⟨rfl, rfl⟩ := Prod.mk.inj (Option.some.inj h)
      exact .mapped guard f
    | unwind =>
      obtain ⟨rfl, rfl⟩ := Prod.mk.inj (Option.some.inj h)
      exact .unwound guard f
    | _ => simp [next] at h
  | dropping =>
    cases a with
    | go =>
      obtain ⟨rfl, rfl⟩ := Prod.mk.inj (Option.some.inj h)
      exact .swapped
    | _ => simp [next] at h
  | swapped old =>
    cases a with
    | go =>
      obtain ⟨rfl, rfl⟩ := Prod.mk.inj (Option.some.inj h)
      split_ifs with hold
      · exact .dropped old hold
      · exact .failed old hold
    | _ => simp [next] at h
  | _ => simp [next] at h

/-- A guard takes the byte to `BORROWED` when it comes alive and to `FREE` when it dies. -/
theorem BorrowPc.Moves.passes (h : p.Moves cell a cell' p') :
    Passes (cell.state = stateBorrowed) (cell'.state = stateBorrowed) p.Alive p'.Alive := by
  cases h with
  | granted kind hfree => exact .take (by simp [hfree, stateFree, stateBorrowed]) rfl trivial
  | swapped => exact .give trivial (by simp [stateFree, stateBorrowed]) id
  | _ => exact .keep Iff.rfl Iff.rfl

/-- `map` leaves the cell and the guard alive. -/
theorem BorrowPc.Moves.of_map {guard : Guard Ptr} {f : Ptr → Ptr} (h : p.Moves cell a cell' p')
    (hmap : p = .alive guard ∧ a = .map f ∨ p = .mapping guard f ∧ a = .go) :
    cell' = cell ∧ (p'.Alive ↔ p.Alive) := by
  rcases hmap with ⟨rfl, rfl⟩ | ⟨rfl, rfl⟩ <;> cases h <;> exact ⟨rfl, Iff.rfl⟩

/-- The compare-exchange is refused exactly where the byte is not `FREE`, and then leaves it. -/
theorem BorrowPc.Moves.of_borrow {kind : GuardKind} (h : p.Moves cell a cell' p')
    (hp : p = .borrow kind) :
    cell.state ≠ stateFree ∧ p' = .refused ∧ cell' = cell ∨
      cell.state = stateFree ∧ p' = .granted kind := by
  subst hp
  cases h with
  | granted kind hfree => exact Or.inr ⟨hfree, rfl⟩
  | refused kind hbusy => exact Or.inl ⟨hbusy, rfl, rfl⟩

/-- What the point of a guard says: the swap of its drop has found `BORROWED`. -/
def BorrowPc.Sound : BorrowPc Ptr → Prop
  | .swapped old => old = stateBorrowed
  | .failed => False
  | _ => True

theorem BorrowPc.Moves.sound (h : p.Moves cell a cell' p') (hp : p.Sound)
    (halive : p.Alive → cell.state = stateBorrowed) : p'.Sound := by
  cases h with
  | swapped => exact halive trivial
  | failed old hold => exact absurd hp hold
  | _ => trivial

theorem BorrowPc.Moves.states (h : p.Moves cell a cell' p')
    (hstates : cell.state = stateFree ∨ cell.state = stateBorrowed) :
    cell'.state = stateFree ∨ cell'.state = stateBorrowed := by
  cases h with
  | granted kind hfree => exact Or.inr rfl
  | swapped => exact Or.inl rfl
  | _ => exact hstates

end Point

/-! ### Runs -/

section Runs

variable {C : Type} {prog : C → GuardKind} {data : Ptr}
  {s t : Calls C (AtomicRefCell Ptr) (BorrowPc Ptr)} {l : C × BorrowAct Ptr}
  {ls : List (C × BorrowAct Ptr)}

/-- The code of the calls. -/
def borrowCode : Code C (AtomicRefCell Ptr) (BorrowPc Ptr) (BorrowAct Ptr) :=
  fun _ cell p a => cell.next p a

/-- A new cell and the calls of `borrow` and `borrow_mut` that will be made on it. -/
def borrowStart (data : Ptr) (prog : C → GuardKind) : Calls C (AtomicRefCell Ptr) (BorrowPc Ptr) :=
  ⟨.new data, fun c => .borrow (prog c)⟩

/-- What holds in every reachable state. -/
structure BorrowReached (s : Calls C (AtomicRefCell Ptr) (BorrowPc Ptr)) : Prop where
  one : OneHolder (fun cell => cell.state = stateBorrowed) BorrowPc.Alive s
  states : s.mem.state = stateFree ∨ s.mem.state = stateBorrowed
  sound : ∀ c, (s.pc c).Sound

theorem borrowReached_start (data : Ptr) (prog : C → GuardKind) :
    BorrowReached (borrowStart data prog) where
  one := by
    refine ⟨iff_of_false ?_ fun hex => hex.elim fun _ => id, fun _ _ hc _ => absurd hc id⟩
    simp [borrowStart, AtomicRefCell.new, stateFree, stateBorrowed]
  states := Or.inl rfl
  sound _ := trivial

/-- The byte is `FREE` exactly when no guard is alive. -/
theorem BorrowReached.free_iff (h : BorrowReached s) :
    s.mem.state = stateFree ↔ ∀ c, ¬ (s.pc c).Alive := by
  constructor
  · intro hfree c
    exact h.one.not_holds (by simp [hfree, stateFree, stateBorrowed])
  · intro hnone
    refine h.states.resolve_right fun hborrowed => ?_
    obtain ⟨c, hc⟩ := h.one.1.mp hborrowed
    exact hnone c hc

variable [DecidableEq C]

theorem BorrowReached.step (h : BorrowReached s) (hs : Calls.Step borrowCode s l t) :
    BorrowReached t := by
  have hmove := AtomicRefCell.moves_of_next hs.own
  refine ⟨h.one.step hs hmove.passes, hmove.states h.states, ?_⟩
  exact hs.forall_pc (fun _ p => p.Sound) (hmove.sound (h.sound l.1) h.one.taken_of_holds)
    fun d _ => h.sound d

theorem BorrowReached.run (r : Run (Calls.Step borrowCode) s ls t) (h : BorrowReached s) :
    BorrowReached t := r.invariant _ (fun _ _ _ hI hs => hI.step hs) h

/-- **One guard at a time.** In every state that calls of `borrow` and `borrow_mut`, `map`s and
drops of their guards can reach, in any number and any interleaving:

* no two guards are alive;
* the byte is `BORROWED` exactly when one guard is alive, and `FREE` exactly when none is;
* a compare-exchange is refused exactly when a guard is alive, and then changes nothing but the
  call's own point; otherwise it grants the borrow;
* no assertion of a drop has failed;
* a `map` neither gives the borrow back nor makes a second one. -/
theorem ref_cell_one_guard (prog : C → GuardKind) (data : Ptr)
    (r : Run (Calls.Step borrowCode) (borrowStart data prog) ls s) :
    (∀ c d, (s.pc c).Alive → (s.pc d).Alive → c = d) ∧
    (s.mem.state = stateBorrowed ↔ ∃! c, (s.pc c).Alive) ∧
    (s.mem.state = stateFree ↔ ∀ c, ¬ (s.pc c).Alive) ∧
    (∀ c kind t, s.pc c = .borrow kind → Calls.Step borrowCode s (c, .go) t →
      ((∃ d, (s.pc d).Alive) ∧ t.pc c = .refused ∧ t.mem = s.mem ∧ ∀ d, d ≠ c → t.pc d = s.pc d) ∨
      ((∀ d, ¬ (s.pc d).Alive) ∧ t.pc c = .granted kind)) ∧
    (∀ c, s.pc c ≠ .failed) ∧
    (∀ c guard f a t, s.pc c = .alive guard ∧ a = .map f ∨ s.pc c = .mapping guard f ∧ a = .go →
      Calls.Step borrowCode s (c, a) t → t.mem = s.mem ∧ ∀ d, (t.pc d).Alive ↔ (s.pc d).Alive) := by
  have hs := (borrowReached_start data prog).run r
  refine ⟨hs.one.2, ⟨fun hborrowed => ?_, fun hone => hs.one.1.mpr hone.exists⟩, hs.free_iff,
    fun c kind t hc hst => ?_, fun c hc => ?_, fun c guard f a t hmap hst => ?_⟩
  · obtain ⟨c, hc⟩ := hs.one.1.mp hborrowed
    exact ⟨c, hc, fun d hd => hs.one.2 d c hd hc⟩
  · rcases (AtomicRefCell.moves_of_next hst.own).of_borrow hc with
      ⟨hbusy, hp, hmem⟩ | ⟨hfree, hp⟩
    · exact Or.inl ⟨hs.one.1.mp (hs.states.resolve_left hbusy), hp, hmem, fun d => hst.other⟩
    · exact Or.inr ⟨hs.free_iff.mp hfree, hp⟩
  · have hsound := hs.sound c
    rw [hc] at hsound
    exact hsound
  · obtain ⟨hmem, halive⟩ := (AtomicRefCell.moves_of_next hst.own).of_map hmap
    exact ⟨hmem, hst.forall_pc (fun d p => p.Alive ↔ (s.pc d).Alive) halive fun _ _ => Iff.rfl⟩

/-- One borrower is refused while the guard of the other is mapped. -/
theorem ref_cell_one_guard_twoBorrowers :
    ∃ ls s, Run (Calls.Step borrowCode)
        (borrowStart 0x1000 fun c : Bool => if c then .refMut else .ref) ls s ∧
      s.pc true = .alive ⟨.refMut, 0x1008⟩ ∧ s.pc false = .refused ∧
      (∀ c d, (s.pc c).Alive → (s.pc d).Alive → c = d) ∧
      (s.mem.state = stateBorrowed ↔ ∃! c, (s.pc c).Alive) := by
  have hrun : ∃ s, Run (Calls.Step borrowCode)
      (borrowStart 0x1000 fun c : Bool => if c then .refMut else .ref)
      [(true, .go), (true, .go), (true, .map (· + 8)), (false, .go), (true, .go)] s ∧
      s.pc true = .alive ⟨.refMut, 0x1008⟩ ∧ s.pc false = .refused :=
    ⟨_, Calls.run_of_exec rfl, rfl, rfl⟩
  obtain ⟨s, r, halive, hrefused⟩ := hrun
  obtain ⟨hunique, hbyte, _⟩ := ref_cell_one_guard _ _ r
  exact ⟨_, s, r, halive, hrefused, hunique, hbyte⟩

end Runs

end Harmony
