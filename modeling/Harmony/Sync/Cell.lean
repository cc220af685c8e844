import Harmony.Lib.Accesses
import Harmony.Lib.Interleaving
import Mathlib.Algebra.Order.Group.Multiset

/-!
# `AtomicCell`: a value behind a spin lock

The model follows `sync/src/cell/atomic_cell.rs`. `spin_lock` takes the lock by a weak
compare-exchange, which may fail at any time, runs its function on the value and gives the lock back
by a store. The function's accesses to the value are single steps, so that another call could see
what is between them if the lock let it.

`SerialState` says that it does not: the calls that have given the lock back have done, one after
another in the order in which they took the lock, what their functions do undisturbed, and at most
one call is in the middle of it. So a value is neither lost nor duplicated: `cell_serial`.
-/

namespace Harmony

open Lib

/-! ### The cell -/

/-- `AtomicCell`. -/
structure AtomicCell (T : Type) where
  value : T
  locked : Bool

/-- `AtomicCell::new`. -/
def AtomicCell.new {T : Type} (value : T) : AtomicCell T := ⟨value, false⟩

/-- Where a call of `spin_lock` is. -/
inductive LockPc (T U : Type) where
  /-- In the loop of `lock`. -/
  | lock (f : Accesses T U)
  /-- Between `lock` and `unlock`, with the accesses that are left. -/
  | inside (f : Accesses T U)
  | done (out : U)

/-- What a step of a call is: the compare-exchange goes through or fails, or the call goes on inside
the lock. -/
inductive LockAct where
  | lock
  | fail
  | go
  deriving DecidableEq

variable {T U C : Type}

/-- A step of `spin_lock`. -/
def AtomicCell.spinLock (cell : AtomicCell T) :
    LockPc T U → LockAct → Option (AtomicCell T × LockPc T U)
  | .lock f, .lock =>
    match compareExchange cell.locked false true with
    | (locked, .ok _) => some ({ cell with locked := locked }, .inside f)
    | (_, .error _) => none
  | .lock f, .fail => some (cell, .lock f)
  | .inside (.read k), .go => some (cell, .inside (k cell.value))
  | .inside (.write v k), .go => some ({ cell with value := v }, .inside k)
  | .inside (.ret out), .go => some ({ cell with locked := false }, .done out)
  | _, _ => none

/-- The call is between `lock` and `unlock`. -/
def LockPc.Inside : LockPc T U → Prop
  | .inside _ => True
  | _ => False

/-! ### What one step does -/

/-- The steps of `spin_lock`. -/
inductive LockPc.Moves (cell : AtomicCell T) :
    LockPc T U → LockAct → AtomicCell T → LockPc T U → Prop
  | locked (f : Accesses T U) (h : cell.locked = false) :
      Moves cell (.lock f) .lock { cell with locked := true } (.inside f)
  | failed (f : Accesses T U) : Moves cell (.lock f) .fail cell (.lock f)
  | read (k : T → Accesses T U) :
      Moves cell (.inside (.read k)) .go cell (.inside (k cell.value))
  | wrote (v : T) (k : Accesses T U) :
      Moves cell (.inside (.write v k)) .go { cell with value := v } (.inside k)
  | unlocked (out : U) :
      Moves cell (.inside (.ret out)) .go { cell with locked := false } (.done out)

section Point

variable {cell cell' : AtomicCell T} {p p' : LockPc T U} {a : LockAct}

theorem AtomicCell.moves_of_spinLock (h : cell.spinLock p a = some (cell', p')) :
    p.Moves cell a cell' p' := by
  cases p with
  | lock f =>
    cases a with
    | lock =>
      by_cases hlocked : cell.locked = false
      · simp only [spinLock, hlocked, compareExchange_self, Option.some.injEq, Prod.mk.injEq] at h
        obtain ⟨rfl, rfl⟩ := h
        exact .locked f hlocked
      · simp [spinLock, compareExchange_of_ne _ hlocked] at h
    | fail =>
      obtain ⟨rfl, rfl⟩ := Prod.mk.inj (Option.some.inj h)
      exact .failed f
    | go => simp [spinLock] at h
  | inside f =>
    cases a with
    | go =>
      cases f with
      | ret out =>
        obtain ⟨rfl, rfl⟩ := Prod.mk.inj (Option.some.inj h)
        exact .unlocked out
      | read k =>
        obtain ⟨rfl, rfl⟩ := Prod.mk.inj (Option.some.inj h)
        exact .read k
      | write v k =>
        obtain ⟨rfl, rfl⟩ := Prod.mk.inj (Option.some.inj h)
        exact .wrote v k
    | _ => simp [spinLock] at h
  | done out => simp [spinLock] at h

theorem LockPc.Moves.passes (h : p.Moves cell a cell' p') :
    Passes (cell.locked = true) (cell'.locked = true) p.Inside p'.Inside := by
  cases h with
  | locked f hfree => exact .take (by simp [hfree]) rfl trivial
  | unlocked out => exact .give trivial (by simp) id
  | _ => exact .keep Iff.rfl Iff.rfl

end Point

/-! ### Runs -/

section Runs

/-- The code of the calls. -/
def lockCode : Code C (AtomicCell T) (LockPc T U) LockAct := fun _ cell p a => cell.spinLock p a

/-- A new cell and the functions that will be run on it. -/
def lockStart (value : T) (fns : C → Accesses T U) : Calls C (AtomicCell T) (LockPc T U) :=
  ⟨.new value, fun c => .lock (fns c)⟩

/-- The calls in the order in which they took the lock. -/
def lockOrder (ls : List (C × LockAct)) : List C :=
  ls.filterMap fun l => if l.2 = .lock then some l.1 else none

theorem lockOrder_concat (ls : List (C × LockAct)) (c : C) (a : LockAct) :
    lockOrder (ls ++ [(c, a)]) = lockOrder ls ++ if a = .lock then [c] else [] := by
  unfold lockOrder
  rw [List.filterMap_append]
  split_ifs with h <;> simp [h]

variable {fns : C → Accesses T U} {v : T} {order : List C}
  {s t : Calls C (AtomicCell T) (LockPc T U)} {ls : List (C × LockAct)} {c d : C}

/-- What is behind the lock when the calls of `order` have taken it: either all of them have given
it back, or the last one is inside and the rest of its accesses will do what all of them do after
the others. -/
inductive Behind (fns : C → Accesses T U) (v : T) (s : Calls C (AtomicCell T) (LockPc T U)) :
    List C → Prop
  | free (order : List C) (hfree : s.mem.locked = false)
      (hdone : order.map s.pc = (serialOuts fns v order).map .done)
      (hvalue : s.mem.value = serialValue fns v order) : Behind fns v s order
  | busy (order : List C) (c : C) (f : Accesses T U) (hlocked : s.mem.locked = true)
      (hdone : order.map s.pc = (serialOuts fns v order).map .done)
      (hc : s.pc c = .inside f)
      (heval : f.eval s.mem.value = (fns c).eval (serialValue fns v order)) :
      Behind fns v s (order ++ [c])

/-- What holds in every reachable state. -/
structure SerialState (fns : C → Accesses T U) (v : T) (order : List C)
    (s : Calls C (AtomicCell T) (LockPc T U)) : Prop where
  nodup : order.Nodup
  /-- A call that has not taken the lock has all of its accesses before it. -/
  waiting : ∀ c, c ∉ order → s.pc c = .lock (fns c)
  behind : Behind fns v s order

theorem serialState_start (fns : C → Accesses T U) (v : T) :
    SerialState fns v [] (lockStart v fns) where
  nodup := List.nodup_nil
  waiting _ _ := rfl
  behind := .free [] rfl rfl rfl

theorem lockStart_oneHolder (v : T) (fns : C → Accesses T U) :
    OneHolder (fun cell => cell.locked = true) LockPc.Inside (lockStart v fns) :=
  ⟨iff_of_false (by simp [lockStart, AtomicCell.new]) fun hex => hex.elim fun _ => id,
    fun _ _ hc _ => absurd hc id⟩

theorem exists_done (h : order.map s.pc = (serialOuts fns v order).map .done) (hc : c ∈ order) :
    ∃ out, s.pc c = .done out := by
  have hmem := List.mem_map_of_mem (f := s.pc) hc
  rw [h] at hmem
  obtain ⟨out, _, hout⟩ := List.mem_map.mp hmem
  exact ⟨out, hout.symm⟩

/-- Who can take the lock: it is free, and the call has not had it. -/
theorem SerialState.of_lock {f : Accesses T U} (h : SerialState fns v order s)
    (hfree : s.mem.locked = false) (hc : s.pc c = .lock f) :
    c ∉ order ∧ f = fns c ∧ order.map s.pc = (serialOuts fns v order).map .done ∧
      s.mem.value = serialValue fns v order := by
  cases h.behind with
  | free order _ hdone hvalue =>
    have hnot : c ∉ order := by
      intro hmem
      obtain ⟨out, hout⟩ := exists_done hdone hmem
      simp [hc] at hout
    have hwait := h.waiting c hnot
    rw [hc] at hwait
    exact ⟨hnot, LockPc.lock.inj hwait, hdone, hvalue⟩
  | busy order d f hlocked => simp [hfree] at hlocked

/-- Who is inside: the last call that took the lock. -/
theorem SerialState.of_inside {f : Accesses T U} (h : SerialState fns v order s)
    (hc : s.pc c = .inside f) :
    ∃ before, order = before ++ [c] ∧ c ∉ before ∧ s.mem.locked = true ∧
      before.map s.pc = (serialOuts fns v before).map .done ∧
      f.eval s.mem.value = (fns c).eval (serialValue fns v before) := by
  have hmem : c ∈ order := by
    by_contra hnot
    simp [h.waiting c hnot] at hc
  have hnodup := h.nodup
  cases h.behind with
  | free order _ hdone _ =>
    obtain ⟨out, hout⟩ := exists_done hdone hmem
    simp [hc] at hout
  | busy before d g hlocked hdone hd heval =>
    have hcd : c = d := by
      refine (List.mem_append.mp hmem).elim (fun hbefore => ?_) List.mem_singleton.mp
      obtain ⟨out, hout⟩ := exists_done hdone hbefore
      simp [hc] at hout
    subst hcd
    obtain rfl := LockPc.inside.inj (hd.symm.trans hc)
    have hnot : c ∉ before := fun hbefore =>
      (List.nodup_append.mp hnodup).2.2 c hbefore c (List.mem_singleton_self c) rfl
    exact ⟨before, rfl, hnot, hlocked, hdone, heval⟩

/-- The result of a call is what it returns after those before it. -/
theorem exists_before {out : U} (h : order.map s.pc = (serialOuts fns v order).map .done)
    (hc : c ∈ order) (hout : s.pc c = .done out) :
    ∃ before after, order = before ++ c :: after ∧
      out = ((fns c).eval (serialValue fns v before)).2 := by
  obtain ⟨before, after, rfl⟩ := List.append_of_mem hc
  refine ⟨before, after, rfl, ?_⟩
  rw [serialOuts_append_cons, List.map_append, List.map_append, List.map_cons, List.map_cons] at h
  have hhead := (List.append_inj h (by simp)).2
  rw [hout] at hhead
  exact LockPc.done.inj (List.cons.inj hhead).1

theorem SerialState.of_done {out : U} (h : SerialState fns v order s) (hc : s.pc c = .done out) :
    ∃ before after, order = before ++ c :: after ∧
      out = ((fns c).eval (serialValue fns v before)).2 := by
  have hmem : c ∈ order := by
    by_contra hnot
    simp [h.waiting c hnot] at hc
  cases h.behind with
  | free order _ hdone _ => exact exists_before hdone hmem hc
  | busy order d f _ hdone hd _ =>
    have hbefore : c ∈ order := by
      refine (List.mem_append.mp hmem).resolve_right fun hlast => ?_
      rw [List.mem_singleton.mp hlast, hd] at hc
      simp at hc
    obtain ⟨before, after, rfl, hout⟩ := exists_before hdone hbefore hc
    exact ⟨before, after ++ [d], by simp, hout⟩

/-- Nobody is inside, so all calls that have taken the lock have given it back. -/
theorem SerialState.of_quiet (h : SerialState fns v order s) (hquiet : ∀ c, ¬ (s.pc c).Inside) :
    order.map s.pc = (serialOuts fns v order).map .done ∧
      s.mem.value = serialValue fns v order := by
  cases h.behind with
  | free order _ hdone hvalue => exact ⟨hdone, hvalue⟩
  | busy order c f _ _ hc _ =>
    refine absurd ?_ (hquiet c)
    rw [hc]
    trivial

variable [DecidableEq C]

/-- The calls that do not take the step keep their points. -/
theorem map_pc_eq {a : LockAct} (hs : Calls.Step lockCode s (c, a) t) (hnot : c ∉ order) :
    order.map t.pc = order.map s.pc := by
  refine List.map_congr_left fun d hd => hs.other ?_
  rintro rfl
  exact hnot hd

/-- A call takes the lock. -/
theorem SerialState.locked {f : Accesses T U} {a : LockAct} (h : SerialState fns v order s)
    (hs : Calls.Step lockCode s (c, a) t) (hfree : s.mem.locked = false) (hp : s.pc c = .lock f)
    (hp' : t.pc c = .inside f) (hm : t.mem = { s.mem with locked := true }) :
    SerialState fns v (order ++ [c]) t := by
  obtain ⟨hnot, rfl, hdone, hvalue⟩ := h.of_lock hfree hp
  refine ⟨?_, fun d hd => ?_, .busy order c _ ?_ ?_ hp' ?_⟩
  · exact List.nodup_append_comm.mp (List.nodup_cons.mpr ⟨hnot, h.nodup⟩)
  · rw [List.mem_append, List.mem_singleton, not_or] at hd
    rw [hs.other hd.2]
    exact h.waiting d hd.1
  · rw [hm]
  · rw [map_pc_eq hs hnot, hdone]
  · rw [hm, ← hvalue]

/-- A call that is inside goes on, and what is left of its function will do the same. -/
theorem SerialState.accessed {f g : Accesses T U} {a : LockAct} (h : SerialState fns v order s)
    (hs : Calls.Step lockCode s (c, a) t) (hp : s.pc c = .inside f) (hp' : t.pc c = .inside g)
    (hlocked : t.mem.locked = s.mem.locked) (heval : g.eval t.mem.value = f.eval s.mem.value) :
    SerialState fns v order t := by
  obtain ⟨before, rfl, hnot, hup, hdone, hleft⟩ := h.of_inside hp
  refine ⟨h.nodup, fun d hd => ?_, .busy before c g ?_ ?_ hp' ?_⟩
  · rw [hs.other (fun hdc => hd (by simp [hdc]))]
    exact h.waiting d hd
  · rw [hlocked, hup]
  · rw [map_pc_eq hs hnot, hdone]
  · rw [heval, hleft]

/-- A call gives the lock back. -/
theorem SerialState.unlocked {out : U} {a : LockAct} (h : SerialState fns v order s)
    (hs : Calls.Step lockCode s (c, a) t) (hp : s.pc c = .inside (.ret out))
    (hp' : t.pc c = .done out) (hm : t.mem = { s.mem with locked := false }) :
    SerialState fns v order t := by
  obtain ⟨before, rfl, hnot, _, hdone, hleft⟩ := h.of_inside hp
  have hvalue : s.mem.value = ((fns c).eval (serialValue fns v before)).1 := by rw [← hleft]; rfl
  have hout : out = ((fns c).eval (serialValue fns v before)).2 := by rw [← hleft]; rfl
  refine ⟨h.nodup, fun d hd => ?_, .free _ ?_ ?_ ?_⟩
  · rw [hs.other (fun hdc => hd (by simp [hdc]))]
    exact h.waiting d hd
  · rw [hm]
  · rw [List.map_append, map_pc_eq hs hnot, hdone, serialOuts_concat, List.map_append,
      List.map_singleton, List.map_singleton, hp', hout]
  · rw [hm, serialValue_concat, ← hvalue]

/-- **One step.** The order grows by the call that takes the lock. -/
theorem SerialState.step {a : LockAct} (h : SerialState fns v order s)
    (hs : Calls.Step lockCode s (c, a) t) :
    SerialState fns v (order ++ if a = .lock then [c] else []) t := by
  have hmove := AtomicCell.moves_of_spinLock hs.own
  generalize hp : s.pc c = p at hmove
  generalize hp' : t.pc c = p' at hmove
  generalize hm : t.mem = m at hmove
  cases hmove with
  | locked f hfree => exact h.locked hs hfree hp hp' hm
  | failed f =>
    obtain rfl := hs.eq_self hm (hp'.trans hp.symm)
    simpa using h
  | read k => simpa using h.accessed hs hp hp' (by rw [hm]) (by rw [hm]; rfl)
  | wrote w k => simpa using h.accessed hs hp hp' (by rw [hm]) (by rw [hm]; rfl)
  | unlocked out => simpa using h.unlocked hs hp hp' hm

/-- **A run**, with the order in which the calls took the lock. -/
theorem serialState_run (r : Run (Calls.Step lockCode) (lockStart v fns) ls s) :
    SerialState fns v (lockOrder ls) s := by
  refine r.history (fun ls s => SerialState fns v (lockOrder ls) s) (fun ls t l u hI hs => ?_)
    (serialState_start fns v)
  rw [lockOrder_concat]
  exact hI.step hs

end Runs

/-! ### The calls of the cell -/

/-- A call on the cell. -/
inductive CellCall (T : Type) where
  | set (value : T)
  | replace (value : T)
  | get
  | getCloned

/-- What a call ends with: the value `replace` returns, the one that the assignment of `set` drops,
or the copy that `get` and `get_cloned` return. -/
inductive CellOut (T : Type) where
  | replaced (old : T)
  | dropped (old : T)
  | got (v : T)
  deriving DecidableEq

/-- The function a call gives to `spin_lock`. -/
def CellCall.fn (clone : T → T) : CellCall T → Accesses T (CellOut T)
  | .set value => .read fun old => .write value (.ret (.dropped old))
  | .replace value => .read fun old => .write value (.ret (.replaced old))
  | .get => .read fun v => .ret (.got v)
  | .getCloned => .read fun v => .ret (.got (clone v))

/-- The calls on a cell that nobody else uses: the value after the call, and what it ends with. -/
def CellCall.apply (clone : T → T) : CellCall T → T → T × CellOut T
  | .set value, old => (value, .dropped old)
  | .replace value, old => (value, .replaced old)
  | .get, v => (v, .got v)
  | .getCloned, v => (v, .got (clone v))

theorem CellCall.eval_fn (clone : T → T) (call : CellCall T) :
    (call.fn clone).eval = call.apply clone := by
  funext v
  cases call <;> rfl

/-- The value that is passed in. -/
def CellCall.given : CellCall T → Multiset T
  | .set value => {value}
  | .replace value => {value}
  | .get => 0
  | .getCloned => 0

/-- The value that is taken out of the cell. -/
def CellOut.taken : CellOut T → Multiset T
  | .replaced old => {old}
  | .dropped old => {old}
  | .got _ => 0

/-- The value that a call has taken out of the cell. -/
def LockPc.taken : LockPc T (CellOut T) → Multiset T
  | .done out => out.taken
  | _ => 0

theorem CellCall.taken_add (clone : T → T) (call : CellCall T) (v : T) :
    ((call.fn clone).eval v).2.taken + {((call.fn clone).eval v).1} = {v} + call.given := by
  rw [eval_fn]
  cases call with
  | set value => rfl
  | replace value => rfl
  | get => exact add_comm (0 : Multiset T) {v}
  | getCloned => exact add_comm (0 : Multiset T) {v}

section Calls

variable [DecidableEq C] {s : Calls C (AtomicCell T) (LockPc T (CellOut T))}
  {ls : List (C × LockAct)}

/-- **No value is lost and none is duplicated.** In every state that calls of `set`, `replace`,
`get` and `get_cloned` can reach, in any number and any interleaving:

* one call at most is between its lock and its unlock;
* every call takes the lock once;
* a call that has returned has done what it does alone, on the value that the calls before it in the
  order of the locks leave one after another;
* when nobody is inside the lock, the calls that have taken it have all returned, the value is what
  they leave one after another, and the values that were taken out by `replace` and `set`, together
  with the value in the cell, are the first value and those that were passed in. -/
theorem cell_keeps_values (clone : T → T) (prog : C → CellCall T) (v : T)
    (r : Run (Calls.Step lockCode) (lockStart v fun c => (prog c).fn clone) ls s) :
    (∀ c d, (s.pc c).Inside → (s.pc d).Inside → c = d) ∧
    (lockOrder ls).Nodup ∧
    (∀ c out, s.pc c = .done out → ∃ before after, lockOrder ls = before ++ c :: after ∧
      out = ((prog c).apply clone (serialValue (fun c => (prog c).fn clone) v before)).2) ∧
    ((∀ c, ¬ (s.pc c).Inside) →
      (∀ c, c ∈ lockOrder ls ↔ ∃ out, s.pc c = .done out) ∧
      s.mem.value = serialValue (fun c => (prog c).fn clone) v (lockOrder ls) ∧
      ((lockOrder ls).map fun c => (s.pc c).taken).sum + {s.mem.value} =
        {v} + ((lockOrder ls).map fun c => (prog c).given).sum) := by
  have hs := serialState_run r
  have hone := OneHolder.run (fun _ _ _ _ _ _ h _ => (AtomicCell.moves_of_spinLock h).passes) r
    (lockStart_oneHolder v _)
  refine ⟨hone.2, hs.nodup, fun c out hc => ?_, fun hquiet => ?_⟩
  · rw [← CellCall.eval_fn]
    exact hs.of_done hc
  · obtain ⟨hdone, hvalue⟩ := hs.of_quiet hquiet
    refine ⟨fun c => ⟨exists_done hdone, fun hout => ?_⟩, hvalue, ?_⟩
    · by_contra hnot
      simp [hs.waiting c hnot] at hout
    · have htaken : (lockOrder ls).map (fun c => (s.pc c).taken) =
          (serialOuts (fun c => (prog c).fn clone) v (lockOrder ls)).map CellOut.taken := by
        have hmap := congrArg (List.map LockPc.taken) hdone
        rwa [List.map_map, List.map_map] at hmap
      rw [htaken, hvalue]
      exact serial_sum (fun w => ({w} : Multiset T)) fun c w => (prog c).taken_add clone w

/-- Two `replace`s: the second one to take the lock gets the value of the first. -/
theorem cell_keeps_values_twoReplaces :
    ∃ ls s, Run (Calls.Step lockCode)
        (lockStart 0 fun c : Bool => (CellCall.replace (if c then 5 else 6)).fn id) ls s ∧
      s.pc true = .done (.replaced 0) ∧ s.pc false = .done (.replaced 5) ∧
      ((lockOrder ls).map fun c => (s.pc c).taken).sum + {s.mem.value} =
        {0} + ((lockOrder ls).map fun c : Bool =>
          (CellCall.replace (if c then 5 else 6)).given).sum := by
  have hrun : ∃ s, Run (Calls.Step lockCode)
      (lockStart 0 fun c : Bool => (CellCall.replace (if c then 5 else 6)).fn id)
      [(true, .lock), (true, .go), (false, .fail), (true, .go), (true, .go), (false, .fail),
        (false, .lock), (false, .go), (false, .go), (false, .go)] s ∧
      s.pc true = .done (.replaced 0) ∧ s.pc false = .done (.replaced 5) :=
    ⟨_, Calls.run_of_exec rfl, rfl, rfl⟩
  obtain ⟨s, r, htrue, hfalse⟩ := hrun
  refine ⟨_, s, r, htrue, hfalse, ((cell_keeps_values id _ 0 r).2.2.2 fun c => ?_).2.2⟩
  cases c with
  | true => simp [htrue, LockPc.Inside]
  | false => simp [hfalse, LockPc.Inside]

end Calls

end Harmony
