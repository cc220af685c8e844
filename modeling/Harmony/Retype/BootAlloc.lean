import Harmony.Retype.Table

/-!
# The boot allocator conserves memory

Runs of `bump_alloc::BumpAllocator` (`harmony/kernel/src/retyping.rs`), which carves frames off the
low ends of the `USABLE` entries of the bootloader's memory map and skips, for good, every entry
too short for a request.

`alloc_frame` is `alloc_frames(1)` on a map of whole frames (`allocFrame_eq`), so one statement says
what a call does (`Carves`). `PhysAddr::new` panics at `2 ^ 52`, after the entry was cut, so the
`USABLE` entries have to end below that (`WholeFrames.physical`).

* `allocFrames_carves`: a call cuts the first entry that has room, or answers `None`.
* `Conserved.step`: every byte stays in its entry or goes to one region.
* `Carves.frames`: of the frames that are left, `alloc_frame` takes the first.
* `boot_allocator_conserves`: what a run keeps.
-/

namespace Harmony

open Lib

/-- The byte lies in the entry. -/
def MapEntry.Has (e : MapEntry) (b : Nat) : Prop := e.base ≤ b ∧ b < e.base + e.length

instance (e : MapEntry) (b : Nat) : Decidable (e.Has b) :=
  inferInstanceAs (Decidable (_ ∧ _))

/-- The entry can serve a request for `requested` bytes. -/
def MapEntry.Fits (e : MapEntry) (requested : Nat) : Prop :=
  e.entryType = .usable ∧ requested ≤ e.length

/-- The entry without its first `requested` bytes. -/
def MapEntry.cut (e : MapEntry) (requested : Nat) : MapEntry :=
  { e with base := e.base + requested, length := e.length - requested }

/-- A map of whole frames, with memory only where there can be some. -/
structure WholeFrames (mm : List MapEntry) : Prop where
  base_aligned : ∀ e ∈ mm, e.base % frameSize = 0
  length_aligned : ∀ e ∈ mm, e.length % frameSize = 0
  physical : ∀ e ∈ mm, e.entryType = .usable → e.base + e.length < 2 ^ 52

/-- A map as the bootloader gives it: its entries do not overlap. -/
structure BootMap (mm : List MapEntry) : Prop extends WholeFrames mm where
  apart : mm.Pairwise fun e e' => ∀ b, ¬ (e.Has b ∧ e'.Has b)

namespace BootAllocator

/-- `bump_alloc::BumpAllocator::new`. -/
def new (memoryMap : List MapEntry) : BootAllocator := ⟨memoryMap, 0⟩

/-- The loop of `alloc_frame`, at most `fuel` entries from the end of the map. -/
def allocFrameLoop (env : Env) :
    Nat → BootAllocator → Except Panic (Option RawFrame × BootAllocator)
  | 0, a => .ok (none, a)
  | fuel + 1, a =>
    match a.memoryMap[a.index]? with
    | none => .ok (none, a)
    | some entry => do
      Panic.ensure (entry.length % frameSize == 0) "entry.length % FRAME_SIZE == 0"
      if entry.entryType = .usable ∧ 0 < entry.length then
        let base ← env.add entry.base frameSize
        let length ← env.sub entry.length frameSize
        let start ← PhysAddr.new entry.base
        let frame ← RawFrame.fromStartAddress start
        pure (some frame,
          { a with memoryMap := a.memoryMap.set a.index { entry with base, length } })
      else allocFrameLoop env fuel { a with index := a.index + 1 }

/-- `bump_alloc::BumpAllocator::alloc_frame`. -/
def allocFrame (env : Env) (a : BootAllocator) : Except Panic (Option RawFrame × BootAllocator) :=
  allocFrameLoop env (a.memoryMap.length - a.index) a

/-! ## One call -/

/-- What a call does: it cuts the first entry from the index on that has room, or there is none and
the map stays. -/
def Carves (requested : Nat) (a : BootAllocator) (start : Option Nat) (a' : BootAllocator) : Prop :=
  match start with
  | none => a.index ≤ a'.index ∧ a'.memoryMap = a.memoryMap ∧
      ∀ i e, a.index ≤ i → a.memoryMap[i]? = some e → ¬ e.Fits requested
  | some s => a.index ≤ a'.index ∧ ∃ e, a.memoryMap[a'.index]? = some e ∧ e.Fits requested ∧
      s = e.base ∧ a'.memoryMap = a.memoryMap.set a'.index (e.cut requested) ∧
      ∀ i e', a.index ≤ i → i < a'.index → a.memoryMap[i]? = some e' → ¬ e'.Fits requested

section Call

variable {env : Env} {requested : Nat} {a a' : BootAllocator}

/-- Past an entry without room the search goes on with the next. -/
theorem Carves.of_succ {e : MapEntry} {start : Option Nat} (he : a.memoryMap[a.index]? = some e)
    (hnot : ¬ e.Fits requested) (h : Carves requested { a with index := a.index + 1 } start a') :
    Carves requested a start a' := by
  have hfrom : ∀ {i e'}, a.index ≤ i → a.memoryMap[i]? = some e' →
      (a.index + 1 ≤ i → ¬ e'.Fits requested) → ¬ e'.Fits requested := by
    intro i e' hle hget hnext
    rcases Nat.eq_or_lt_of_le hle with rfl | hlt
    · obtain rfl := Option.some.inj (he.symm.trans hget)
      exact hnot
    · exact hnext hlt
  cases start with
  | none =>
    obtain ⟨hle, hmap, hnone⟩ := h
    exact ⟨Nat.le_of_succ_le hle, hmap, fun i e' hi hget =>
      hfrom hi hget fun hlt => hnone i e' hlt hget⟩
  | some s =>
    obtain ⟨hle, e', hget, hfit, hs, hmap, hskip⟩ := h
    refine ⟨Nat.le_of_succ_le hle, e', hget, hfit, hs, hmap, fun i e'' hi hlt hget' => ?_⟩
    exact hfrom hi hget' fun hnext => hskip i e'' hnext hlt hget'

/-- **The loop of `alloc_frames`** does not panic on such a map. -/
theorem allocFramesLoop_carves (env : Env) (requested : Nat) (hmap : WholeFrames a.memoryMap)
    (fuel : Nat) (hfuel : a.memoryMap.length ≤ a.index + fuel) :
    ∃ r a', allocFramesLoop env requested fuel a = .ok (r, a') ∧
      Carves requested a (r.map PhysAddr.addr) a' := by
  induction fuel generalizing a with
  | zero =>
    refine ⟨none, a, rfl, Nat.le_refl _, rfl, fun i e hi hget => ?_⟩
    have hlt := (List.getElem?_eq_some_iff.mp hget).1
    omega
  | succ fuel ih =>
    unfold allocFramesLoop
    cases hget : a.memoryMap[a.index]? with
    | none =>
      refine ⟨none, a, rfl, Nat.le_refl _, rfl, fun i e hi hget' => ?_⟩
      have hlt := (List.getElem?_eq_some_iff.mp hget').1
      have hge := List.getElem?_eq_none_iff.mp hget
      omega
    | some e =>
      have hmem := List.mem_of_getElem? hget
      have hensure : Panic.ensure (e.length % frameSize == 0) "entry.length % FRAME_SIZE == 0" =
          .ok () := by
        rw [hmap.length_aligned e hmem]
        rfl
      simp only [hensure]
      by_cases hfit : e.Fits requested
      · obtain ⟨husable, hroom⟩ := hfit
        have hend := hmap.physical e hmem husable
        have hbase : env.add e.base requested = .ok (e.base + requested) :=
          Env.add_of_lt env (by omega)
        have hlen : env.sub e.length requested = .ok (e.length - requested) :=
          Env.sub_of_le env hroom
        have hstart : PhysAddr.new e.base = .ok ⟨e.base, by omega⟩ := PhysAddr.new_of_lt (by omega)
        refine ⟨some ⟨e.base, by omega⟩, ⟨a.memoryMap.set a.index (e.cut requested), a.index⟩, ?_,
          Nat.le_refl _, e, hget, ⟨husable, hroom⟩, rfl, rfl,
          fun i _ hi hlt => absurd hi (Nat.not_le_of_lt hlt)⟩
        simp only [bind, Except.bind]
        rw [if_pos ⟨husable, hroom⟩, hbase, hlen, hstart]
        rfl
      · obtain ⟨r, a', hrun, hr⟩ := ih (a := { a with index := a.index + 1 }) hmap
          (by simp only; omega)
        refine ⟨r, a', ?_, hr.of_succ hget hfit⟩
        simp only [bind, Except.bind]
        rw [if_neg (show ¬ (e.entryType = .usable ∧ requested ≤ e.length) from hfit), hrun]

theorem allocFrames_carves (env : Env) (hmap : WholeFrames a.memoryMap) {count : Nat}
    (hcount : count * frameSize < 2 ^ 64) :
    ∃ r a', allocFrames env a count = .ok (r, a') ∧
      Carves (count * frameSize) a (r.map PhysAddr.addr) a' := by
  obtain ⟨r, a', hrun, hr⟩ := allocFramesLoop_carves env (count * frameSize) hmap
    (a.memoryMap.length - a.index) (by omega)
  refine ⟨r, a', ?_, hr⟩
  unfold allocFrames
  rw [Env.mul_of_lt env hcount]
  exact hrun

/-- Entries of whole frames: there is room for a frame as soon as there is any. -/
theorem allocFrameLoop_eq (hmap : WholeFrames a.memoryMap) (fuel : Nat) :
    allocFrameLoop env fuel a =
      (allocFramesLoop env frameSize fuel a).map fun r => (r.1.map RawFrame.mk, r.2) := by
  induction fuel generalizing a with
  | zero => rfl
  | succ fuel ih =>
    unfold allocFrameLoop allocFramesLoop
    cases hget : a.memoryMap[a.index]? with
    | none => rfl
    | some e =>
      have hmem := List.mem_of_getElem? hget
      have hal := hmap.length_aligned e hmem
      have hroom : 0 < e.length ↔ frameSize ≤ e.length := by
        simp only [frameSize] at hal ⊢
        omega
      simp only [hroom, bind, Except.bind]
      cases Panic.ensure (e.length % frameSize == 0) "entry.length % FRAME_SIZE == 0" with
      | error p => rfl
      | ok u =>
        simp only
        by_cases hfit : e.entryType = .usable ∧ frameSize ≤ e.length
        · rw [if_pos hfit, if_pos hfit]
          cases env.add e.base frameSize with
          | error p => rfl
          | ok base =>
            cases env.sub e.length frameSize with
            | error p => rfl
            | ok length =>
              cases hstart : PhysAddr.new e.base with
              | error p => rfl
              | ok start =>
                have hbase : start.addr % frameSize = 0 := by
                  rw [PhysAddr.new_eq_ok hstart]
                  exact hmap.base_aligned e hmem
                simp only [RawFrame.fromStartAddress_of_aligned hbase]
                rfl
        · rw [if_neg hfit, if_neg hfit]
          exact ih (a := { a with index := a.index + 1 }) hmap

/-- **`alloc_frame` is `alloc_frames(1)`.** -/
theorem allocFrame_eq (hmap : WholeFrames a.memoryMap) :
    allocFrame env a = (allocFrames env a 1).map fun r => (r.1.map RawFrame.mk, r.2) := by
  have hmul : env.mul 1 frameSize = .ok frameSize := Env.mul_of_lt env (by decide)
  unfold allocFrame allocFrames
  rw [hmul]
  exact allocFrameLoop_eq hmap _

/-- **The loop ends by itself**: at the end of the map a larger bound changes nothing. -/
theorem allocFramesLoop_fuel (env : Env) (requested fuel more : Nat)
    (hfuel : a.memoryMap.length ≤ a.index + fuel) :
    allocFramesLoop env requested (fuel + more) a = allocFramesLoop env requested fuel a := by
  induction fuel generalizing a with
  | zero =>
    have hget : a.memoryMap[a.index]? = none := List.getElem?_eq_none hfuel
    cases more with
    | zero => rfl
    | succ more =>
      rw [Nat.zero_add]
      unfold allocFramesLoop
      rw [hget]
  | succ fuel ih =>
    rw [Nat.add_right_comm]
    unfold allocFramesLoop
    cases a.memoryMap[a.index]? with
    | none => rfl
    | some e =>
      have hrest := ih (a := { a with index := a.index + 1 }) (by simp only; omega)
      simp only [hrest]

end Call

end BootAllocator

/-! ## The frames that are left -/

/-- The start addresses of an entry's frames, if they may be used. -/
def MapEntry.frames (e : MapEntry) : List Nat :=
  if e.entryType = .usable then (List.range (e.length / frameSize)).map (e.base + · * frameSize)
  else []

/-- The frames of the `USABLE` entries, in map order. -/
def usableFrames (mm : List MapEntry) : List Nat := mm.flatMap MapEntry.frames

theorem MapEntry.frames_of_not_fits {e : MapEntry} (h : ¬ e.Fits frameSize) : e.frames = [] := by
  unfold MapEntry.frames
  split_ifs with husable
  · have hlt : e.length < frameSize := by
      by_contra hge
      exact h ⟨husable, Nat.le_of_not_lt hge⟩
    rw [Nat.div_eq_of_lt hlt]
    rfl
  · rfl

theorem MapEntry.frames_of_fits {e : MapEntry} (h : e.Fits frameSize) :
    e.frames = e.base :: (e.cut frameSize).frames := by
  obtain ⟨husable, hroom⟩ := h
  have hdiv : e.length / frameSize = (e.length - frameSize) / frameSize + 1 :=
    Nat.div_eq_sub_div (by decide) hroom
  unfold MapEntry.frames MapEntry.cut
  rw [if_pos husable, if_pos husable, hdiv, List.range_succ_eq_map, List.map_cons, List.map_map]
  simp only [Nat.zero_mul, Nat.add_zero, List.cons.injEq, true_and]
  refine List.map_congr_left fun i _ => ?_
  simp only [Function.comp_apply, Nat.succ_eq_add_one]
  rw [Nat.add_mul, Nat.one_mul]
  omega

theorem usableFrames_drop {mm : List MapEntry} {i : Nat} {e : MapEntry} (h : mm[i]? = some e) :
    usableFrames (mm.drop i) = e.frames ++ usableFrames (mm.drop (i + 1)) := by
  obtain ⟨hi, rfl⟩ := List.getElem?_eq_some_iff.mp h
  rw [List.drop_eq_getElem_cons hi]
  rfl

/-- The entries without room hold no frames. -/
theorem usableFrames_skip {mm : List MapEntry} {lo hi : Nat} (hle : lo ≤ hi)
    (hskip : ∀ i e, lo ≤ i → i < hi → mm[i]? = some e → ¬ e.Fits frameSize) :
    usableFrames (mm.drop lo) = usableFrames (mm.drop hi) := by
  induction hi, hle using Nat.le_induction with
  | base => rfl
  | succ hi hle ih =>
    rw [ih fun i e hlo hlt => hskip i e hlo (Nat.lt_succ_of_lt hlt)]
    cases hget : mm[hi]? with
    | none =>
      have hlen := List.getElem?_eq_none_iff.mp hget
      rw [List.drop_eq_nil_of_le hlen, List.drop_eq_nil_of_le (Nat.le_succ_of_le hlen)]
    | some e =>
      rw [usableFrames_drop hget,
        MapEntry.frames_of_not_fits (hskip hi e hle (Nat.lt_succ_self hi) hget), List.nil_append]

/-- The frames `alloc_frame` has still to return. -/
def BootAllocator.left (a : BootAllocator) : List Nat := usableFrames (a.memoryMap.drop a.index)

/-- **A call for one frame takes the first that is left.** -/
theorem BootAllocator.Carves.frames {a a' : BootAllocator} {start : Option Nat}
    (h : Carves frameSize a start a') : start = a.left.head? ∧ a'.left = a.left.tail := by
  unfold left
  cases start with
  | none =>
    obtain ⟨hle, hmap, hnone⟩ := h
    have hend : ∀ k, a.index ≤ k → usableFrames (a.memoryMap.drop k) = [] := by
      intro k hk
      rw [usableFrames_skip (Nat.le_max_left k a.memoryMap.length) fun i e hi _ hget =>
          hnone i e (Nat.le_trans hk hi) hget,
        List.drop_eq_nil_of_le (Nat.le_max_right _ _)]
      rfl
    rw [hmap, hend a.index (Nat.le_refl _), hend a'.index hle]
    exact ⟨rfl, rfl⟩
  | some s =>
    obtain ⟨hle, e, hget, hfit, rfl, hmap, hskip⟩ := h
    have hlt := (List.getElem?_eq_some_iff.mp hget).1
    have hget' : a'.memoryMap[a'.index]? = some (e.cut frameSize) := by
      rw [hmap]
      exact List.getElem?_set_self hlt
    have hrest : a'.memoryMap.drop (a'.index + 1) = a.memoryMap.drop (a'.index + 1) := by
      rw [hmap]
      exact List.drop_set_of_lt (Nat.lt_succ_self _)
    rw [usableFrames_skip hle hskip, usableFrames_drop hget, usableFrames_drop hget', hrest,
      MapEntry.frames_of_fits hfit]
    exact ⟨rfl, rfl⟩

/-! ## Runs -/

/-- A call of the allocator. -/
inductive BootCall where
  | frame
  | frames (count : Nat)

/-- Memory that a call returned. -/
structure Region where
  start : Nat
  length : Nat

/-- The byte lies in the region. -/
def Region.Has (r : Region) (b : Nat) : Prop := r.start ≤ b ∧ b < r.start + r.length

instance (r : Region) (b : Nat) : Decidable (r.Has b) := inferInstanceAs (Decidable (_ ∧ _))

namespace BootCall

/-- The bytes a call asks for. -/
def request : BootCall → Nat
  | .frame => frameSize
  | .frames count => count * frameSize

/-- The call with its loop cut off after `fuel` turns. -/
def within (env : Env) (fuel : Nat) (a : BootAllocator) :
    BootCall → Except Panic (Option Nat × BootAllocator)
  | .frame => (a.allocFrameLoop env fuel).map fun r => (r.1.map (·.base.addr), r.2)
  | .frames count =>
    (env.mul count frameSize >>= fun requested => a.allocFramesLoop env requested fuel).map
      fun r => (r.1.map (·.addr), r.2)

/-- The call: the start address it returns. -/
def exec (env : Env) (a : BootAllocator) : BootCall → Except Panic (Option Nat × BootAllocator)
  | .frame => (a.allocFrame env).map fun r => (r.1.map (·.base.addr), r.2)
  | .frames count => (a.allocFrames env count).map fun r => (r.1.map (·.addr), r.2)

end BootCall

/-- The allocator, the regions it returned and all its answers, in order. -/
structure Carving where
  allocator : BootAllocator
  regions : List Region
  answers : List (Option Nat)

namespace Carving

/-- Before the first call. -/
def start (mm : List MapEntry) : Carving := ⟨BootAllocator.new mm, [], []⟩

/-- The answer to a call is booked. -/
def book (w : Carving) (c : BootCall) (answer : Option Nat) (a : BootAllocator) : Carving where
  allocator := a
  regions := (answer.map fun s => ⟨s, c.request⟩).toList ++ w.regions
  answers := w.answers ++ [answer]

/-- One call. -/
def step (env : Env) (w : Carving) (c : BootCall) : Except Panic Carving := do
  let (answer, a) ← c.exec env w.allocator
  pure (w.book c answer a)

/-- The calls in order. -/
def run (env : Env) (w : Carving) (calls : List BootCall) : Except Panic Carving :=
  calls.foldlM (step env) w

end Carving

/-- What is left of an entry. -/
structure MapEntry.Rest (e₀ e : MapEntry) : Prop where
  entryType : e.entryType = e₀.entryType
  base_le : e₀.base ≤ e.base
  end_eq : e.base + e.length = e₀.base + e₀.length
  other : e₀.entryType ≠ .usable → e = e₀
  base_aligned : e.base % frameSize = 0
  length_aligned : e.length % frameSize = 0

/-- **The law**, against the map `mm` of the start. -/
structure Conserved (mm : List MapEntry) (w : Carving) : Prop where
  /-- Every entry is the rest of the one that was there; those not `USABLE` never change. -/
  length_eq : w.allocator.memoryMap.length = mm.length
  entries : ∀ (i : Nat) (e₀ e : MapEntry), mm[i]? = some e₀ →
    w.allocator.memoryMap[i]? = some e → e₀.Rest e
  aligned : ∀ r ∈ w.regions, r.start % frameSize = 0
  inside : ∀ r ∈ w.regions, ∃ e ∈ mm, e.entryType = .usable ∧ e.base ≤ r.start ∧
    r.start + r.length ≤ e.base + e.length
  apart : w.regions.Pairwise fun r r' => ∀ b, ¬ (r.Has b ∧ r'.Has b)
  /-- A byte of a `USABLE` entry is in one region, or still in the entry. -/
  bytes : ∀ (i : Nat) (e₀ e : MapEntry), mm[i]? = some e₀ →
    w.allocator.memoryMap[i]? = some e → e₀.entryType = .usable → ∀ b, e₀.Has b →
      w.regions.countP (·.Has b) + (if e.Has b then 1 else 0) = 1

section Runs

variable {env : Env} {mm : List MapEntry} {w : Carving} {c : BootCall}

theorem BootCall.exec_carves (env : Env) {a : BootAllocator} (hmap : WholeFrames a.memoryMap)
    (hc : c.request < 2 ^ 64) :
    ∃ answer a', c.exec env a = .ok (answer, a') ∧ a.Carves c.request answer a' := by
  cases c with
  | frames count =>
    obtain ⟨r, a', hrun, hr⟩ := BootAllocator.allocFrames_carves env hmap hc
    refine ⟨_, a', ?_, hr⟩
    simp only [BootCall.exec, hrun]
    rfl
  | frame =>
    obtain ⟨r, a', hrun, hr⟩ := BootAllocator.allocFrames_carves env hmap
      (show 1 * frameSize < 2 ^ 64 by decide)
    rw [Nat.one_mul] at hr
    refine ⟨_, a', ?_, hr⟩
    simp only [BootCall.exec, BootAllocator.allocFrame_eq hmap, hrun]
    cases r <;> rfl

/-- The loop of a call ends by itself. -/
theorem BootCall.within_fuel {a : BootAllocator} (hmap : WholeFrames a.memoryMap) (more : Nat) :
    c.within env (a.memoryMap.length - a.index + more) a = c.exec env a := by
  cases c with
  | frames count =>
    simp only [BootCall.within, BootCall.exec, BootAllocator.allocFrames]
    rw [funext fun requested => BootAllocator.allocFramesLoop_fuel env requested
      (a.memoryMap.length - a.index) more (by omega)]
  | frame =>
    simp only [BootCall.within, BootCall.exec, BootAllocator.allocFrame,
      BootAllocator.allocFrameLoop_eq hmap]
    rw [BootAllocator.allocFramesLoop_fuel env _ _ more (by omega)]

theorem Conserved.start (hmm : BootMap mm) : Conserved mm (Carving.start mm) where
  length_eq := rfl
  entries i e₀ e h₀ h := by
    obtain rfl := Option.some.inj (h₀.symm.trans h)
    have hmem := List.mem_of_getElem? h
    exact ⟨rfl, Nat.le_refl _, rfl, fun _ => rfl, hmm.base_aligned _ hmem,
      hmm.length_aligned _ hmem⟩
  aligned _ hr := absurd hr List.not_mem_nil
  inside _ hr := absurd hr List.not_mem_nil
  apart := List.Pairwise.nil
  bytes i e₀ e h₀ h _ b hb := by
    obtain rfl := Option.some.inj (h₀.symm.trans h)
    rw [if_pos hb]
    rfl

/-- The entry at the start of the run. -/
theorem Conserved.origin (h : Conserved mm w) {i : Nat} {e : MapEntry}
    (he : w.allocator.memoryMap[i]? = some e) : ∃ e₀, mm[i]? = some e₀ ∧ e₀.Rest e := by
  have hi : i < mm.length := h.length_eq ▸ (List.getElem?_eq_some_iff.mp he).1
  have h₀ : mm[i]? = some mm[i] := List.getElem?_eq_getElem hi
  exact ⟨mm[i], h₀, h.entries i _ e h₀ he⟩

/-- Calls can go on with what is left. -/
theorem Conserved.wholeFrames (hmm : BootMap mm) (h : Conserved mm w) :
    WholeFrames w.allocator.memoryMap := by
  have hrest : ∀ e ∈ w.allocator.memoryMap, ∃ e₀ ∈ mm, e₀.Rest e := by
    intro e hmem
    obtain ⟨i, he⟩ := List.mem_iff_getElem?.mp hmem
    obtain ⟨e₀, h₀, hr⟩ := h.origin he
    exact ⟨e₀, List.mem_of_getElem? h₀, hr⟩
  constructor
  · intro e hmem
    obtain ⟨e₀, _, hr⟩ := hrest e hmem
    exact hr.base_aligned
  · intro e hmem
    obtain ⟨e₀, _, hr⟩ := hrest e hmem
    exact hr.length_aligned
  · intro e hmem husable
    obtain ⟨e₀, h₀, hr⟩ := hrest e hmem
    rw [hr.end_eq]
    exact hmm.physical e₀ h₀ (hr.entryType.symm.trans husable)

theorem BootCall.request_aligned (c : BootCall) : c.request % frameSize = 0 := by
  cases c with
  | frame => rfl
  | frames count => exact Nat.mul_mod_left _ _

theorem MapEntry.Rest.has {e₀ e : MapEntry} (h : e₀.Rest e) {b : Nat} (hb : e.Has b) :
    e₀.Has b := by
  obtain ⟨hlo, hhi⟩ := hb
  exact ⟨Nat.le_trans h.base_le hlo, h.end_eq ▸ hhi⟩

theorem MapEntry.Rest.cut {e₀ e : MapEntry} (h : e₀.Rest e) {requested : Nat}
    (hfit : e.Fits requested) (hal : requested % frameSize = 0) : e₀.Rest (e.cut requested) := by
  obtain ⟨husable, hroom⟩ := hfit
  have hend := h.end_eq
  have hb := h.base_aligned
  have hl := h.length_aligned
  simp only [frameSize] at hal hb hl
  constructor
  · exact h.entryType
  · exact Nat.le_trans h.base_le (Nat.le_add_right _ _)
  · simp only [MapEntry.cut]
    omega
  · exact fun hne => absurd (h.entryType.symm.trans husable) hne
  · simp only [MapEntry.cut, frameSize]
    omega
  · simp only [MapEntry.cut, frameSize]
    omega

/-- A byte of an entry with room is cut off or stays. -/
theorem MapEntry.has_cut {e : MapEntry} {requested : Nat} (hroom : requested ≤ e.length) (b : Nat) :
    (if (⟨e.base, requested⟩ : Region).Has b then 1 else 0) +
      (if (e.cut requested).Has b then 1 else 0) = if e.Has b then 1 else 0 := by
  have hoff : (⟨e.base, requested⟩ : Region).Has b ↔ e.Has b ∧ b < e.base + requested := by
    simp only [Region.Has, MapEntry.Has]
    omega
  have hstays : (e.cut requested).Has b ↔ e.Has b ∧ ¬ b < e.base + requested := by
    simp only [MapEntry.Has, MapEntry.cut]
    omega
  simp only [hoff, hstays]
  by_cases hb : e.Has b
  · by_cases hlt : b < e.base + requested <;> simp [hb, hlt]
  · simp [hb]

/-- The entries of a map that does not overlap share no byte. -/
theorem BootMap.index_eq (hmm : BootMap mm) {i j : Nat} {e e' : MapEntry} (he : mm[i]? = some e)
    (he' : mm[j]? = some e') {b : Nat} (hb : e.Has b) (hb' : e'.Has b) : i = j := by
  obtain ⟨hi, rfl⟩ := List.getElem?_eq_some_iff.mp he
  obtain ⟨hj, rfl⟩ := List.getElem?_eq_some_iff.mp he'
  have hapart := List.pairwise_iff_getElem.mp hmm.apart
  rcases Nat.lt_trichotomy i j with hlt | heq | hlt
  · exact absurd ⟨hb, hb'⟩ (hapart i j hi hj hlt b)
  · exact heq
  · exact absurd ⟨hb', hb⟩ (hapart j i hj hi hlt b)

/-- **One call keeps the law.** -/
theorem Conserved.step (hmm : BootMap mm) (h : Conserved mm w) {answer : Option Nat}
    {a' : BootAllocator} (hc : w.allocator.Carves c.request answer a') :
    Conserved mm (w.book c answer a') := by
  cases answer with
  | none =>
    obtain ⟨_, hmap, _⟩ := hc
    obtain ⟨h1, h2, h3, h4, h5, h6⟩ := h
    rw [← hmap] at h1 h2 h6
    exact ⟨h1, h2, h3, h4, h5, h6⟩
  | some s =>
    obtain ⟨_, e, hget, hfit, rfl, hmap, _⟩ := hc
    obtain ⟨e₀, hget₀, hrest⟩ := h.origin hget
    have husable : e₀.entryType = .usable := hrest.entryType.symm.trans hfit.1
    have hlt := (List.getElem?_eq_some_iff.mp hget).1
    -- an entry of the new map is the one that was cut, or an old one
    have hcases : ∀ {i e'}, a'.memoryMap[i]? = some e' →
        (i = a'.index ∧ e' = e.cut c.request) ∨
          (i ≠ a'.index ∧ w.allocator.memoryMap[i]? = some e') := by
      intro i e' hi
      rw [hmap] at hi
      by_cases heq : i = a'.index
      · subst heq
        rw [List.getElem?_set_self hlt] at hi
        exact Or.inl ⟨rfl, (Option.some.inj hi).symm⟩
      · rw [List.getElem?_set_ne (Ne.symm heq)] at hi
        exact Or.inr ⟨heq, hi⟩
    have hin : ∀ {b}, (⟨e.base, c.request⟩ : Region).Has b → e.Has b := by
      intro b hb
      exact ⟨hb.1, Nat.lt_of_lt_of_le hb.2 (Nat.add_le_add_left hfit.2 _)⟩
    constructor
    · show a'.memoryMap.length = mm.length
      rw [hmap, List.length_set]
      exact h.length_eq
    · intro i f₀ f hf₀ hf
      rcases hcases hf with ⟨rfl, rfl⟩ | ⟨_, hold⟩
      · obtain rfl := Option.some.inj (hget₀.symm.trans hf₀)
        exact hrest.cut hfit c.request_aligned
      · exact h.entries i f₀ f hf₀ hold
    · intro r hr
      rcases List.mem_cons.mp hr with rfl | hr
      · exact hrest.base_aligned
      · exact h.aligned r hr
    · intro r hr
      rcases List.mem_cons.mp hr with rfl | hr
      · refine ⟨e₀, List.mem_of_getElem? hget₀, husable, hrest.base_le, ?_⟩
        rw [← hrest.end_eq]
        exact Nat.add_le_add_left hfit.2 _
      · exact h.inside r hr
    · refine List.pairwise_cons.mpr ⟨fun r hr b hb => ?_, h.apart⟩
      -- a byte that was still in the entry is in no region yet
      have hone := h.bytes _ e₀ e hget₀ hget husable b (hrest.has (hin hb.1))
      rw [if_pos (hin hb.1)] at hone
      have hzero : w.regions.countP (·.Has b) = 0 := by omega
      exact (List.countP_eq_zero.mp hzero r hr) (by simpa using hb.2)
    · intro i f₀ f hf₀ hf hu b hb
      have hcount : (w.book c (some e.base) a').regions.countP (·.Has b) =
          w.regions.countP (·.Has b) + if (⟨e.base, c.request⟩ : Region).Has b then 1 else 0 := by
        simp [Carving.book, List.countP_cons]
      rw [hcount]
      rcases hcases hf with ⟨rfl, rfl⟩ | ⟨hne, hold⟩
      · obtain rfl := Option.some.inj (hget₀.symm.trans hf₀)
        have hold := h.bytes _ e₀ e hget₀ hget husable b hb
        have hcut := MapEntry.has_cut hfit.2 b
        omega
      · have hnot : ¬ (⟨e.base, c.request⟩ : Region).Has b := fun hreg =>
          hne (hmm.index_eq hf₀ hget₀ hb (hrest.has (hin hreg)))
        rw [if_neg hnot]
        exact h.bytes i f₀ f hf₀ hold hu b hb

/-- One call from a state that keeps the law. -/
theorem Conserved.call (env : Env) (hmm : BootMap mm) (h : Conserved mm w)
    (hc : c.request < 2 ^ 64) :
    ∃ answer a', c.exec env w.allocator = .ok (answer, a') ∧
      w.allocator.Carves c.request answer a' ∧
      w.step env c = .ok (w.book c answer a') ∧ Conserved mm (w.book c answer a') := by
  obtain ⟨answer, a', hrun, hcarve⟩ := BootCall.exec_carves env (h.wholeFrames hmm) hc
  refine ⟨answer, a', hrun, hcarve, ?_, h.step hmm hcarve⟩
  simp only [Carving.step, hrun]
  rfl

/-- **A whole run keeps the law**, and does not panic. -/
theorem Conserved.run (env : Env) (hmm : BootMap mm) (h : Conserved mm w)
    (calls : List BootCall) (hcalls : ∀ c ∈ calls, c.request < 2 ^ 64) :
    ∃ w', w.run env calls = .ok w' ∧ Conserved mm w' := by
  induction calls generalizing w with
  | nil => exact ⟨w, rfl, h⟩
  | cons c calls ih =>
    obtain ⟨answer, a', _, _, hstep, h'⟩ := h.call env hmm (hcalls c List.mem_cons_self)
    obtain ⟨w', hrun, hw'⟩ := ih h' fun c hc => hcalls c (List.mem_cons_of_mem _ hc)
    refine ⟨w', ?_, hw'⟩
    simp only [Carving.run, List.foldlM_cons, hstep]
    exact hrun

/-- **Single frames come in map order**: the calls answer with the frames that are left, one by
one, and with `None` from then on. -/
theorem Conserved.run_frames (hmm : BootMap mm) (h : Conserved mm w) (n : Nat) :
    ∃ w', w.run env (List.replicate n .frame) = .ok w' ∧
      w'.answers = w.answers ++ (List.range n).map (w.allocator.left[·]?) := by
  induction n generalizing w with
  | zero => exact ⟨w, rfl, by simp⟩
  | succ n ih =>
    obtain ⟨answer, a', _, hcarve, hstep, h'⟩ := h.call env (c := .frame) hmm (by decide)
    obtain ⟨w', hrun, hanswers⟩ := ih h'
    obtain ⟨hhead, htail⟩ := hcarve.frames
    refine ⟨w', ?_, ?_⟩
    · simp only [Carving.run, List.replicate_succ, List.foldlM_cons, hstep]
      exact hrun
    · rw [hanswers]
      simp only [Carving.book, htail, hhead, List.range_succ_eq_map, List.map_cons, List.map_map,
        List.append_assoc, List.singleton_append, List.head?_eq_getElem?]
      congr 2
      refine List.map_congr_left fun k _ => ?_
      simp only [Function.comp_apply, Nat.succ_eq_add_one, List.getElem?_tail]

end Runs

/-- What a call answers in a state of a run: it ends, by itself, and answers `None` exactly where no
entry from the index on has room, without changing the map. -/
def AnswersCall (env : Env) (a : BootAllocator) (c : BootCall) : Prop :=
  ∃ answer a', (∀ more, c.within env (a.memoryMap.length - a.index + more) a = .ok (answer, a')) ∧
    c.exec env a = .ok (answer, a') ∧
    (answer = none ↔ ∀ i e, a.index ≤ i → a.memoryMap[i]? = some e → ¬ e.Fits c.request) ∧
    (answer = none → a'.memoryMap = a.memoryMap)

theorem BootAllocator.Carves.none_iff {a a' : BootAllocator} {requested : Nat}
    {answer : Option Nat} (h : a.Carves requested answer a') :
    answer = none ↔ ∀ i e, a.index ≤ i → a.memoryMap[i]? = some e → ¬ e.Fits requested := by
  cases answer with
  | none => exact ⟨fun _ => h.2.2, fun _ => rfl⟩
  | some s =>
    obtain ⟨hle, e, hget, hfit, _⟩ := h
    exact ⟨fun hc => absurd hc (by simp), fun hno => absurd hfit (hno _ e hle hget)⟩

theorem Conserved.answers {env : Env} {mm : List MapEntry} {w : Carving} (hmm : BootMap mm)
    (h : Conserved mm w) {c : BootCall} (hc : c.request < 2 ^ 64) :
    AnswersCall env w.allocator c := by
  obtain ⟨answer, a', hrun, hcarve, _, _⟩ := h.call env hmm hc
  refine ⟨answer, a', fun more => ?_, hrun, hcarve.none_iff, fun hnone => ?_⟩
  · rw [BootCall.within_fuel (h.wholeFrames hmm)]
    exact hrun
  · subst hnone
    exact hcarve.2.1

/-- A map whose only frame lies where no physical address does. -/
def mapAtLimit : List MapEntry := [⟨2 ^ 52, 0x1000, .usable⟩]

/-- Its frame is never returned: the first call panics. -/
theorem alloc_frame_at_limit :
    (∀ e ∈ mapAtLimit, e.base % frameSize = 0 ∧ e.length % frameSize = 0) ∧
      (mapAtLimit.Pairwise fun e e' => ∀ b, ¬ (e.Has b ∧ e'.Has b)) ∧
      usableFrames mapAtLimit = [2 ^ 52] ∧
      ∀ env, (Carving.start mapAtLimit).run env [.frame] =
        .error (.message "Invalid Physical Address: Must be up to 52 bits") := by
  refine ⟨by decide, List.pairwise_singleton _ _, by decide, fun env => ?_⟩
  have hadd : env.add (2 ^ 52) frameSize = .ok (2 ^ 52 + frameSize) := Env.add_of_lt env (by decide)
  have hsub : env.sub 0x1000 frameSize = .ok 0 := Env.sub_of_le env (by decide)
  simp only [Carving.run, List.foldlM_cons, Carving.step, BootCall.exec, Carving.start,
    BootAllocator.new, BootAllocator.allocFrame, BootAllocator.allocFrameLoop, mapAtLimit,
    List.length_cons, List.length_nil, List.getElem?_cons_zero]
  rw [hadd, hsub]
  rfl

/-- **The boot allocator conserves memory**, over every sequence of calls. -/
theorem boot_allocator_conserves (env : Env) (mm : List MapEntry) (hmm : BootMap mm) :
    (∀ calls : List BootCall, (∀ c ∈ calls, c.request < 2 ^ 64) →
      ∃ w, (Carving.start mm).run env calls = .ok w ∧ Conserved mm w ∧
        ∀ c : BootCall, c.request < 2 ^ 64 → AnswersCall env w.allocator c) ∧
    ∀ n, ∃ w, (Carving.start mm).run env (List.replicate n .frame) = .ok w ∧
      w.answers = (List.range n).map ((usableFrames mm)[·]?) := by
  constructor
  · intro calls hcalls
    obtain ⟨w, hrun, hw⟩ := (Conserved.start hmm).run env hmm calls hcalls
    exact ⟨w, hrun, hw, fun c hc => hw.answers hmm hc⟩
  · intro n
    exact (Conserved.start hmm).run_frames hmm n

/-- A map with a hole, a reserved entry and two pieces of memory. -/
def mixedMap : List MapEntry :=
  [⟨0, 0x2000, .usable⟩, ⟨0x5000, 0x1000, .other 1⟩, ⟨0x6000, 0x1000, .usable⟩]

theorem boot_allocator_conserves_mixedMap :
    ∃ w, (Carving.start mixedMap).run Env.dev (List.replicate 4 .frame) = .ok w ∧
      w.answers = [some 0, some 0x1000, some 0x6000, none] := by
  have hmap : BootMap mixedMap := by
    refine ⟨⟨by decide, by decide, by decide⟩, ?_⟩
    have hsorted : mixedMap.Pairwise fun e e' => e.base + e.length ≤ e'.base := by decide
    exact hsorted.imp fun hle b hb => by
      simp only [MapEntry.Has] at hb
      omega
  exact (boot_allocator_conserves Env.dev mixedMap hmap).2 4

end Harmony
