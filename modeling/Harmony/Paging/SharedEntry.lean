import Harmony.Paging.EntryOps
import Harmony.Lib.Linear

/-!
# A page-table entry that several cores work on

A `PageTableEntry` (`paging/page_table.rs`) is one `AtomicU64`. `get` is a load, `set` and `reset`
are swaps, and `set_flags` is a `fetch_update`: a load and a loop around a weak compare-exchange.
Here the calls take their steps in any interleaving.

* `mapping_calls_linearizable`: the calls that have returned did what the operations of `EntryOps`
  do one after another.
* `slot_frames_conserved`: the frames that were put into the slot come out of it in that order, each
  one once. A `set_flags` that meets the slot empty puts frame 0 into it (`entry_agrees_iff`).
-/

namespace Harmony

open Lib

/-- The word an atomic method has found. -/
def foundWord : Except (BitVec 64) (BitVec 64) → BitVec 64
  | .ok old => old
  | .error old => old

namespace MappingOp

/-- The method of `AtomicU64` the operation is, and what it makes of the word it finds. -/
def call : MappingOp → AtomicCall (BitVec 64) (Except Panic MappingAnswer)
  | .get =>
    { op := .load
      answer := fun r => (PageTableEntry.get (foundWord r)).map .mapping }
  | .set frame attributes _ _ =>
    { op := .swap (PageTableEntry.encode frame attributes)
      answer := fun r =>
        (PageTableEntry.setBits (foundWord r) (PageTableEntry.encode frame attributes)).2.map
          .mapping }
  | .reset =>
    { op := .swap 0
      answer := fun r => (PageTableEntry.reset (foundWord r)).2.map .mapping }
  | .setFlags flags _ =>
    { op := .fetchUpdate fun value => some ((value &&& frameMask) ||| flags.bits)
      answer := fun r => (PageTableEntry.setFlags (foundWord r) flags).2.map .flags }

/-- **Each call, where it takes effect, is the operation of one step.** -/
theorem call_spec (op : MappingOp) : op.call.spec = op.run := by
  funext w
  cases op <;> rfl

/-- The frame the operation puts into a slot: `set` its own, and `set_flags` frame 0 if there is
none. -/
def putIn (m : Option Mapping) : MappingOp → List RawFrame
  | .set frame _ _ _ => [frame]
  | .setFlags _ _ => if m = none then [.zero] else []
  | _ => []

/-- The frame the operation hands out: `set` and `reset` return the mapping they replace. -/
def handedOut : MappingOp → MappingAnswer → List RawFrame
  | .set _ _ _ _, .mapping (some m) => [m.1]
  | .reset, .mapping (some m) => [m.1]
  | _, _ => []

end MappingOp

/-- The frame of a mapping. -/
def framesOf (m : Option Mapping) : List RawFrame := (m.map Prod.fst).toList

/-- **One operation on the word**: the frame that was in it and the one that is put in come out or
stay. -/
theorem MappingOp.conserves (op : MappingOp) (value : BitVec 64) :
    framesOf (PageTableEntry.decode value) ++ op.putIn (PageTableEntry.decode value) =
      op.handedOut (op.apply (PageTableEntry.decode value)).2 ++
        framesOf (PageTableEntry.decode (op.run value).1) := by
  by_cases hmapped : ∀ flags h, op = .setFlags flags h → PageTableEntry.decode value ≠ none
  · -- the word stands for what the abstract entry is, and there each operation keeps the frames
    rw [op.decode_run hmapped rfl]
    cases op with
    | setFlags flags h =>
      obtain ⟨m, hm⟩ := Option.ne_none_iff_exists'.mp (hmapped flags h rfl)
      rw [hm]
      rfl
    | get | reset | set =>
      cases PageTableEntry.decode value <;> rfl
  · -- new flags on an empty slot map frame 0
    simp only [not_forall, not_not] at hmapped
    obtain ⟨flags, hpresent, rfl, hnone⟩ := hmapped
    have hzero : value = 0 := PageTableEntry.decode_eq_none.mp hnone
    subst hzero
    have hput := PageTableEntry.get_setFlags_zero hpresent
    rw [PageTableEntry.get_eq] at hput
    rw [hnone, run, Except.ok.inj hput]
    rfl

section Race

variable {C : Type} [DecidableEq C] {calls : C → MappingOp} {w : BitVec 64}
  {s t : Calls C (BitVec 64) (AtomicPc (BitVec 64))} {ls ms : List (C × AtomicAct)} {order : List C}

/-- A step of one of the calls on one entry. -/
abbrev MappingRace (calls : C → MappingOp) :=
  Calls.Step (AtomicCall.code fun c => (calls c).call)

/-- The calls that have returned are those of `order`; word and results are as if they were made in
that order, each in one step. -/
abbrev MappingOrder (calls : C → MappingOp) (w : BitVec 64) (order : List C)
    (s : Calls C (BitVec 64) (AtomicPc (BitVec 64))) : Prop :=
  Linear (fun c => (calls c).run) (fun c => (calls c).call.result) w order s

omit [DecidableEq C] in
theorem mappingOrder_eq :
    MappingOrder calls w order s = AtomicCall.Ordered (fun c => (calls c).call) w order s := by
  simp only [MappingOrder, AtomicCall.Ordered, MappingOp.call_spec]

theorem MappingOrder.run (h : MappingOrder calls w order s) (r : Run (MappingRace calls) s ls t) :
    ∃ more, MappingOrder calls w (order ++ more) t := by
  simp only [mappingOrder_eq] at h ⊢
  exact AtomicCall.ordered_run h r

omit [DecidableEq C] in
theorem mappingOrder_init : MappingOrder calls w [] (AtomicCall.init w) := by
  rw [mappingOrder_eq]
  exact AtomicCall.ordered_init

/-- **The operations of `PageTableEntry` are linearizable.** Any number of calls race on one entry.
At every moment those that have returned left the word, and returned, what the operations of one
step do in some order, and the calls that return later come after them in it. -/
theorem mapping_calls_linearizable (r : Run (MappingRace calls) (AtomicCall.init w) ls s)
    (r' : Run (MappingRace calls) s ms t) :
    ∃ before after, MappingOrder calls w before s ∧ MappingOrder calls w (before ++ after) t := by
  obtain ⟨before, hs⟩ := mappingOrder_init.run r
  obtain ⟨after, ht⟩ := hs.run r'
  exact ⟨before, after, hs, ht⟩

/-- A frame is mapped while the flags of the slot are changed. -/
def setAndFlags : Bool → MappingOp
  | false => .set .zero .present rfl rfl
  | true => .setFlags .present rfl

/-- `set_flags` has read the slot empty, loses its exchange and reads again. -/
theorem mapping_calls_linearizable_setAndFlags :
    ∃ s t, Run (MappingRace setAndFlags) (AtomicCall.init PageTableEntry.new)
        [(true, .go), (true, .spurious), (false, .go)] s ∧
      Run (MappingRace setAndFlags) s [(true, .go), (true, .go)] t ∧
      ∃ before after, MappingOrder setAndFlags PageTableEntry.new before s ∧
        MappingOrder setAndFlags PageTableEntry.new (before ++ after) t := by
  have hrun : ∃ s t, Run (MappingRace setAndFlags) (AtomicCall.init PageTableEntry.new)
        [(true, .go), (true, .spurious), (false, .go)] s ∧
      Run (MappingRace setAndFlags) s [(true, .go), (true, .go)] t :=
    ⟨_, _, Calls.run_of_exec rfl, Calls.run_of_exec rfl⟩
  obtain ⟨s, t, r, r'⟩ := hrun
  exact ⟨s, t, r, r', mapping_calls_linearizable r r'⟩

/-- What a call has handed out. -/
def handedOutBy (calls : C → MappingOp) (s : Calls C (BitVec 64) (AtomicPc (BitVec 64))) (c : C) :
    List RawFrame :=
  match (calls c).call.result (s.pc c) with
  | some (.ok answer) => (calls c).handedOut answer
  | _ => []

/-- The frames that the calls of a list put into the slot, made one after another on `w`. -/
def putInBy (calls : C → MappingOp) (w : BitVec 64) (order : List C) : List RawFrame :=
  (observed (fun c => (calls c).run) (fun c w => (calls c).putIn (PageTableEntry.decode w)) w
    order).flatten

omit [DecidableEq C] in
/-- The calls of a prefix of the order, one after another. -/
theorem MappingOrder.conserves (h : MappingOrder calls w order s) {pre post : List C}
    (hsplit : order = pre ++ post) :
    framesOf (PageTableEntry.decode w) ++ putInBy calls w pre = pre.flatMap (handedOutBy calls s) ++
      framesOf (PageTableEntry.decode (serially (fun c => (calls c).run) w pre)) := by
  induction pre using List.reverseRecOn generalizing post with
  | nil => simp [serially, putInBy, observed]
  | append_singleton pre c ih =>
    have hplace : order = pre ++ c :: post := by simpa using hsplit
    have hreturned := h.returned pre c post hplace
    rw [(calls c).run_snd] at hreturned
    set value := serially (fun c => (calls c).run) w pre with hvalue
    have hout : handedOutBy calls s c =
        (calls c).handedOut ((calls c).apply (PageTableEntry.decode value)).2 := by
      simp only [handedOutBy, hreturned]
    have hput : putInBy calls w (pre ++ [c]) =
        putInBy calls w pre ++ (calls c).putIn (PageTableEntry.decode value) := by
      unfold putInBy
      rw [observed_concat, List.flatten_append, List.flatten_singleton]
    rw [serially_concat, hput, List.flatMap_append, List.flatMap_singleton, ← List.append_assoc,
      ih hplace, hout, List.append_assoc, List.append_assoc, (calls c).conserves]

/-- **Racing calls lose no frame and hand out none twice.** The calls that have returned took effect
in one order. In it, the frame that was in the slot and those that the calls have put into it come
out, each one once; the last one is in it. -/
theorem slot_frames_conserved (r : Run (MappingRace calls) (AtomicCall.init w) ls s) :
    ∃ order : List C, MappingOrder calls w order s ∧
      (∀ d, d ∈ order ↔ ((calls d).call.result (s.pc d)).isSome) ∧
      framesOf (PageTableEntry.decode w) ++ putInBy calls w order =
        order.flatMap (handedOutBy calls s) ++ framesOf (PageTableEntry.decode s.mem) := by
  obtain ⟨order, hord⟩ := mappingOrder_init.run r
  rw [List.nil_append] at hord
  refine ⟨order, hord, fun _ => hord.mem_iff, ?_⟩
  rw [hord.mem]
  exact hord.conserves (List.append_nil order).symm

/-- `set_flags` meets the slot empty, and `set` hands out frame 0. -/
theorem slot_frames_conserved_setAndFlags :
    ∃ s, Run (MappingRace setAndFlags) (AtomicCall.init PageTableEntry.new)
        [(true, .go), (true, .go), (false, .go)] s ∧
      ∃ order : List Bool, MappingOrder setAndFlags PageTableEntry.new order s ∧
        (∀ d, d ∈ order ↔ ((setAndFlags d).call.result (s.pc d)).isSome) ∧
        framesOf (PageTableEntry.decode PageTableEntry.new) ++
            putInBy setAndFlags PageTableEntry.new order =
          order.flatMap (handedOutBy setAndFlags s) ++ framesOf (PageTableEntry.decode s.mem) := by
  have hrun : ∃ s, Run (MappingRace setAndFlags) (AtomicCall.init PageTableEntry.new)
      [(true, .go), (true, .go), (false, .go)] s :=
    ⟨_, Calls.run_of_exec rfl⟩
  obtain ⟨s, r⟩ := hrun
  exact ⟨s, r, slot_frames_conserved r⟩

end Race

end Harmony
