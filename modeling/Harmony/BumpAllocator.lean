import Harmony.Retype.Frames

/-!
# The frame allocator

Model of `BumpAllocator` (`harmony/kernel/src/bump_allocator.rs`): one loop that walks up from
`index` and tries to claim each frame until one is claimed or the retype table ends. The three
`alloc_*` methods differ in what they try.

The source's `loop` is recursion on the frames left in the table; the frame after the last is out
of bounds, so there is always one attempt more than frames left (`allocLoop_fuel`: more would
change nothing). `FRAME_SIZE * index` wraps in the `release` profile, so an index stands for the
frame of its remainder by `2 ^ 52`.

* `wp_allocUserFrame`, `wp_allocKernelFrame`, `wp_allocUntypedFrame`: a frame that comes out was
  `Untyped`; nothing but its own entry changed.
* `alloc_searches`: which frame comes out, and that the loop ends.
-/

namespace Harmony

open Lib

/-- `BumpAllocator`. -/
structure BumpAllocator where
  index : Nat

/-- How an attempt on a frame ends. -/
inductive Attempt (α : Type) where
  | done (a : α)
  | outOfBounds
  | retry

/-- `Err(OutOfBounds)` ends the loop, any other error goes on. -/
def Attempt.ofRetype {α : Type} : Except RetypeError α → Attempt α
  | .ok a => .done a
  | .error .outOfBounds => .outOfBounds
  | .error _ => .retry

def Attempt.ofAsType {α : Type} : Except AsTypeError α → Attempt α
  | .ok a => .done a
  | .error .outOfBounds => .outOfBounds
  | .error _ => .retry

namespace BumpAllocator

variable {α : Type}

/-- `BumpAllocator::new`. -/
def new : BumpAllocator := ⟨0⟩

/-- One turn of the loop: `RawFrame::from_start_address(PhysAddr::new(FRAME_SIZE * index))` and the
attempt. -/
def tryAt (env : Env) (attempt : RawFrame → KM (Attempt α)) (index : Nat) : KM (Attempt α) := do
  let start ← orPanic (env.mul frameSize index)
  let base ← orPanic (PhysAddr.new start)
  let frame ← orPanic (RawFrame.fromStartAddress base)
  attempt frame

/-- The loop, with the number of frames left in the table. -/
def allocLoop (env : Env) (attempt : RawFrame → KM (Attempt α)) :
    Nat → BumpAllocator → KM (Option α × BumpAllocator)
  | 0, a => do
    match ← tryAt env attempt a.index with
    | .done x => pure (some x, a)
    | .outOfBounds | .retry => pure (none, a)
  | left + 1, a => do
    match ← tryAt env attempt a.index with
    | .done x => pure (some x, a)
    | .outOfBounds => pure (none, a)
    | .retry =>
      let index ← orPanic (env.add a.index 1)
      allocLoop env attempt left ⟨index⟩

/-- The common body of the `alloc_*` methods. -/
def alloc (env : Env) (attempt : RawFrame → KM (Attempt α)) (a : BumpAllocator) :
    KM (Option α × BumpAllocator) := do
  let frames := (← get).retypeMap.length
  allocLoop env attempt (frames - a.index % 2 ^ 52) a

/-- `alloc_user_frame`. -/
def allocUserFrame (env : Env) (a : BumpAllocator) : KM (Option UserFrame × BumpAllocator) :=
  alloc env (fun f => return .ofRetype (← f.tryIntoUser)) a

/-- `alloc_untyped_frame`. -/
def allocUntypedFrame (env : Env) (a : BumpAllocator) : KM (Option RawFrame × BumpAllocator) :=
  alloc env (fun f => return .ofAsType (← f.tryAsUntyped)) a

/-- `alloc_kernel_frame`. -/
def allocKernelFrame (env : Env) (a : BumpAllocator) : KM (Option KernelFrame × BumpAllocator) :=
  alloc env (fun f => return .ofRetype (← f.tryIntoKernel)) a

/-! ## What an attempt does -/

/-- The frame was `Untyped` without references, and is claimed now; nothing else changed. -/
structure Claimed (st : State) (m : Machine) (f : RawFrame) (m' : Machine) : Prop where
  aligned : f.Aligned
  entries : ∃ e e', m.retypeMap[f.number]? = some e ∧ e.get = (.untyped, 0) ∧
    e'.get = (st, 1) ∧ m' = m.setEntry f.number e'

/-- The attempt succeeds on the free frames, and goes on at the other frames of the table. -/
structure Decides (attempt : RawFrame → KM (Attempt α)) (free : State × Nat → Prop)
    (frameOf : α → RawFrame) (Q : α → Machine → Prop) (m : Machine) : Prop where
  outside : ∀ f, m.retypeMap[f.number]? = none → attempt f m = .ok .outOfBounds m
  retry : ∀ f e, m.retypeMap[f.number]? = some e → ¬ free e.get → attempt f m = .ok .retry m
  done : ∀ f e, f.Aligned → m.retypeMap[f.number]? = some e → free e.get →
    ∃ x m', attempt f m = .ok (.done x) m' ∧ frameOf x = f ∧ Q x m'

section Spec

variable {env : Env} {m : Machine} {attempt : RawFrame → KM (Attempt α)}
  {free : State × Nat → Prop} {frameOf : α → RawFrame} {Q : α → Machine → Prop}

namespace Claimed

variable {st : State} {f : RawFrame} {m' : Machine}

theorem was_untyped (h : Claimed st m f m') : m.typing f.number = some (.untyped, 0) := by
  obtain ⟨e, e', he, hg, _, _⟩ := h.entries
  simp [Machine.typing, he, hg]

theorem typing_self (h : Claimed st m f m') : m'.typing f.number = some (st, 1) := by
  obtain ⟨e, e', he, _, hg, rfl⟩ := h.entries
  simp [Machine.typing, Machine.getElem?_setEntry_self e' he, hg]

theorem typing_ne (h : Claimed st m f m') {n : Nat} (hn : n ≠ f.number) :
    m'.typing n = m.typing n := by
  obtain ⟨e, e', _, _, _, rfl⟩ := h.entries
  simp [Machine.typing, Machine.getElem?_setEntry_ne hn]

theorem mem_eq (h : Claimed st m f m') : m'.mem = m.mem := by
  obtain ⟨e, e', _, _, _, rfl⟩ := h.entries
  rfl

theorem cr3_eq (h : Claimed st m f m') : m'.cr3 = m.cr3 := by
  obtain ⟨e, e', _, _, _, rfl⟩ := h.entries
  rfl

theorem trace_eq (h : Claimed st m f m') : m'.trace = m.trace := by
  obtain ⟨e, e', _, _, _, rfl⟩ := h.entries
  rfl

end Claimed

/-- A claim succeeds on the frames that are `Untyped` without references. -/
theorem decides_claim {st : State} {claim : RawFrame → KM (Except RetypeError α)}
    (mk : RawFrame → α) (hframe : ∀ f, frameOf (mk f) = f)
    (hclaim : ∀ f, claim f = (return (← RawFrame.tryInto st f).map mk)) :
    Decides (fun f => return .ofRetype (← claim f)) (· = (.untyped, 0)) frameOf
      (fun x m' => Claimed st m (frameOf x) m') m := by
  have hrun : ∀ {f r m'}, RawFrame.tryInto st f m = .ok r m' →
      (return .ofRetype (← claim f) : KM (Attempt α)) m = .ok (.ofRetype (r.map mk)) m' := by
    intro f r m' h
    have hc : claim f m = .ok (r.map mk) m' := by
      rw [hclaim]
      exact bind_of_eq_ok h
    exact bind_of_eq_ok hc
  constructor
  · exact fun f hnone => hrun (tryInto_of_none st hnone)
  · exact fun f e he hne => hrun (tryInto_of_ne st he hne)
  · intro f e hf he hu
    obtain ⟨e', hg', hclaimed⟩ := tryInto_of_eq st he hu
    refine ⟨mk f, m.setEntry f.number e', hrun hclaimed, hframe f, ?_⟩
    rw [hframe]
    exact ⟨hf, e, e', he, hu, hg', rfl⟩

theorem decides_user : Decides (fun f => return .ofRetype (← f.tryIntoUser)) (· = (.untyped, 0))
    UserFrame.frame (fun u m' => Claimed .user m u.frame m') m :=
  decides_claim UserFrame.mk (fun _ => rfl) (fun _ => rfl)

theorem decides_kernel : Decides (fun f => return .ofRetype (← f.tryIntoKernel))
    (· = (.untyped, 0)) KernelFrame.frame (fun k m' => Claimed .kernel m k.frame m') m :=
  decides_claim KernelFrame.mk (fun _ => rfl) (fun _ => rfl)

/-- `try_as_untyped` only looks, and does not ask for the counter. -/
theorem decides_untyped : Decides (fun f => return .ofAsType (← f.tryAsUntyped))
    (fun t => t.1 = .untyped) id (fun _ m' => m' = m) m := by
  have hrun : ∀ (f : RawFrame) (e : RetypeEntry), m.retypeMap[f.number]? = some e →
      (return .ofAsType (← f.tryAsUntyped) : KM (Attempt RawFrame)) m =
        if e.get.1 = .untyped then .ok (.done f) m else .ok .retry m := by
    intro f e he
    unfold RawFrame.tryAsUntyped
    simp only [bind_assoc]
    refine (bind_of_eq_ok (rfl : (get : KM Machine) m = .ok m m)).trans ?_
    rw [he]
    by_cases hu : e.get.1 = .untyped
    · simp only [ne_eq, hu, not_true_eq_false, if_false, if_true]
      rfl
    · simp only [ne_eq, hu, not_false_eq_true, if_true, if_false]
      rfl
  constructor
  · intro f hnone
    unfold RawFrame.tryAsUntyped
    simp only [bind_assoc]
    refine (bind_of_eq_ok (rfl : (get : KM Machine) m = .ok m m)).trans ?_
    rw [hnone]
    rfl
  · intro f e he hne
    rw [hrun f e he]
    exact if_neg hne
  · intro f e _ he hu
    refine ⟨f, m, ?_, rfl, rfl⟩
    rw [hrun f e he]
    exact if_pos hu

/-- What comes out of an attempt was free. -/
theorem Decides.was_free (h : Decides attempt free frameOf Q m) :
    Decides attempt free frameOf (fun x m' => Q x m' ∧ (frameOf x).Aligned ∧
      ∃ e, m.retypeMap[(frameOf x).number]? = some e ∧ free e.get) m := by
  refine ⟨h.outside, h.retry, fun f e hf he hfree => ?_⟩
  obtain ⟨x, m', hrun, hx, hq⟩ := h.done f e hf he hfree
  exact ⟨x, m', hrun, hx, hq, by rwa [hx], e, by rwa [hx], hfree⟩

/-! ## What comes out -/

/-- What a search leaves: a frame, or the machine as it was. -/
def Found (Q : α → Machine → Prop) (m : Machine) (r : Option α × BumpAllocator) (m' : Machine) :
    Prop :=
  match r.1 with
  | some x => Q x m'
  | none => m' = m

/-- The frame an index stands for, or a panic on the way to it. -/
theorem tryAt_cases (env : Env) (attempt : RawFrame → KM (Attempt α)) (index : Nat) (m : Machine) :
    (∃ f : RawFrame, f.Aligned ∧ f.number = index % 2 ^ 52 ∧
      tryAt env attempt index m = attempt f m) ∨ ∃ p, tryAt env attempt index m = .error p m := by
  unfold tryAt
  cases hmul : env.mul frameSize index with
  | error p => exact Or.inr ⟨p, orPanic_error_bind _ m rfl⟩
  | ok start =>
    have hstart : start = frameSize * (index % 2 ^ 52) := by
      rcases Env.mul_eq_ok hmul with ⟨hlt, rfl⟩ | ⟨_, _, rfl⟩
      · rw [Nat.mod_eq_of_lt (by simp only [frameSize] at hlt; omega)]
      · rw [show 2 ^ 64 = frameSize * 2 ^ 52 from rfl, Nat.mul_mod_mul_left]
    rw [orPanic_ok_bind _ m rfl]
    cases hbase : PhysAddr.new start with
    | error p => exact Or.inr ⟨p, orPanic_error_bind _ m rfl⟩
    | ok base =>
      have haddr : base.addr = frameSize * (index % 2 ^ 52) :=
        (PhysAddr.new_eq_ok hbase).trans hstart
      have hal : base.addr % frameSize = 0 := by rw [haddr]; exact Nat.mul_mod_right _ _
      rw [orPanic_ok_bind _ m rfl, orPanic_ok_bind _ m (RawFrame.fromStartAddress_of_aligned hal)]
      refine Or.inl ⟨⟨base⟩, hal, ?_, rfl⟩
      unfold RawFrame.number
      rw [haddr]
      exact Nat.mul_div_cancel_left _ (by decide)

theorem wp_tryAt (env : Env) (h : Decides attempt free frameOf Q m) (index : Nat) :
    wp (tryAt env attempt index) (fun r m' => match r with
      | .done x => Q x m'
      | .outOfBounds | .retry => m' = m) (fun _ m' => m' = m) m := by
  rcases tryAt_cases env attempt index m with ⟨f, hf, _, hrun⟩ | ⟨p, hrun⟩
  · cases he : m.retypeMap[f.number]? with
    | none => rw [wp_of_eq_ok (hrun.trans (h.outside f he))]
    | some e =>
      by_cases hfree : free e.get
      · obtain ⟨x, m', hdone, _, hq⟩ := h.done f e hf he hfree
        rw [wp_of_eq_ok (hrun.trans hdone)]
        exact hq
      · rw [wp_of_eq_ok (hrun.trans (h.retry f e he hfree))]
  · unfold wp
    rw [hrun]

/-- **The loop**: the machine stays as it was until an attempt succeeds. -/
theorem wp_allocLoop (h : Decides attempt free frameOf Q m) (left : Nat) (a : BumpAllocator) :
    wp (allocLoop env attempt left a) (Found Q m) (fun _ m' => m' = m) m := by
  induction left generalizing a with
  | zero =>
    unfold allocLoop
    refine wp_seq (wp_tryAt env h a.index) (fun r m' hr => ?_) (fun _ _ he => he)
    cases r with
    | done x => exact hr
    | outOfBounds => exact hr
    | retry => exact hr
  | succ left ih =>
    unfold allocLoop
    refine wp_seq (wp_tryAt env h a.index) (fun r m' hr => ?_) (fun _ _ he => he)
    cases r with
    | done x => exact hr
    | outOfBounds => exact hr
    | retry =>
      obtain rfl : m' = m := hr
      rw [wp_bind]
      exact wp_orPanic (fun index _ => ih ⟨index⟩) (fun _ _ => rfl)

theorem wp_alloc (h : Decides attempt free frameOf Q m) (a : BumpAllocator) :
    wp (alloc env attempt a) (Found Q m) (fun _ m' => m' = m) m := by
  unfold alloc
  rw [wp_bind, wp_get]
  exact wp_allocLoop h _ a

theorem wp_allocUserFrame (a : BumpAllocator) :
    wp (allocUserFrame env a) (Found (fun u m' => Claimed .user m u.frame m') m)
      (fun _ m' => m' = m) m := wp_alloc decides_user a

theorem wp_allocKernelFrame (a : BumpAllocator) :
    wp (allocKernelFrame env a) (Found (fun k m' => Claimed .kernel m k.frame m') m)
      (fun _ m' => m' = m) m := wp_alloc decides_kernel a

/-- `alloc_untyped_frame` only looks. -/
theorem wp_allocUntypedFrame (a : BumpAllocator) :
    wp (allocUntypedFrame env a) (Found (fun f m' => m' = m ∧ f.Aligned ∧
      ∃ e, m.retypeMap[f.number]? = some e ∧ e.get.1 = .untyped) m) (fun _ m' => m' = m) m :=
  wp_alloc decides_untyped.was_free a

/-- **One attempt more than frames left is enough**: the loop does not come back for more. -/
theorem allocLoop_fuel (h : Decides attempt free frameOf Q m)
    (hlen : m.retypeMap.length < 2 ^ 52) (left more : Nat) (a : BumpAllocator)
    (hindex : a.index < 2 ^ 64) (ha : a.index % 2 ^ 52 + left = m.retypeMap.length) :
    allocLoop env attempt (left + more) a m = allocLoop env attempt left a m := by
  induction left generalizing a with
  | zero =>
    cases more with
    | zero => rfl
    | succ more =>
      rw [Nat.add_zero] at ha
      rw [Nat.zero_add]
      unfold allocLoop
      rcases tryAt_cases env attempt a.index m with ⟨f, _, hnum, hrun⟩ | ⟨p, hrun⟩
      · have hnone : m.retypeMap[f.number]? = none :=
          List.getElem?_eq_none (by rw [hnum, ha])
        have hend := hrun.trans (h.outside f hnone)
        rw [bind_of_eq_ok hend, bind_of_eq_ok hend]
      · rw [bind_of_eq_error hrun, bind_of_eq_error hrun]
  | succ left ih =>
    rw [Nat.add_right_comm]
    unfold allocLoop
    cases htry : tryAt env attempt a.index m with
    | error p m' => rw [bind_of_eq_error htry, bind_of_eq_error htry]
    | ok r m' =>
      rw [bind_of_eq_ok htry, bind_of_eq_ok htry]
      cases r with
      | done x => rfl
      | outOfBounds => rfl
      | retry =>
        have hsame := wp_ok (wp_tryAt env h a.index) htry
        simp only at hsame
        subst hsame
        have hadd := Env.add_of_lt env (a := a.index) (b := 1) (by omega)
        simp only [hadd]
        exact ih ⟨a.index + 1⟩ (by simp only; omega) (by simp only; omega)

/-! ## Which frame comes out -/

/-- The first frame from `index` on whose entry is free. -/
structure First (m : Machine) (free : State × Nat → Prop) (index : Nat) (f : RawFrame) : Prop where
  aligned : f.Aligned
  le : index ≤ f.number
  isFree : ∃ t, m.typing f.number = some t ∧ free t
  least : ∀ n t, index ≤ n → n < f.number → m.typing n = some t → ¬ free t

/-- What a search answers: the first free frame, where the cursor stays, or nothing where there is
none. -/
def Answer (free : State × Nat → Prop) (frameOf : α → RawFrame) (Q : α → Machine → Prop)
    (m : Machine) (index : Nat) (r : Option α × BumpAllocator) (m' : Machine) : Prop :=
  match r.1 with
  | some x => First m free index (frameOf x) ∧ r.2.index = (frameOf x).number ∧ Q x m'
  | none => m' = m ∧ r.2.index = m.retypeMap.length ∧ ∀ n t, index ≤ n → m.typing n = some t →
      ¬ free t

theorem tryAt_of_lt (env : Env) (attempt : RawFrame → KM (Attempt α)) {index : Nat}
    (h : index * frameSize < 2 ^ 52) (m : Machine) :
    ∃ f : RawFrame, f.Aligned ∧ f.number = index ∧ tryAt env attempt index m = attempt f m := by
  have hbase : frameSize * index < 2 ^ 52 := by rwa [Nat.mul_comm]
  have hal : frameSize * index % frameSize = 0 := Nat.mul_mod_right _ _
  refine ⟨⟨⟨frameSize * index, hbase⟩⟩, hal, Nat.mul_div_cancel_left _ (by decide), ?_⟩
  unfold tryAt
  rw [orPanic_ok_bind _ m (Env.mul_of_lt env (Nat.lt_trans hbase (by decide))),
    orPanic_ok_bind _ m (PhysAddr.new_of_lt hbase),
    orPanic_ok_bind _ m (RawFrame.fromStartAddress_of_aligned hal)]

/-- Where the frame at `index` is not free, the search may start at the next. -/
theorem Answer.of_succ {index : Nat} {r : Option α × BumpAllocator} {m' : Machine}
    (hnot : ∀ t, m.typing index = some t → ¬ free t)
    (h : Answer free frameOf Q m (index + 1) r m') : Answer free frameOf Q m index r m' := by
  have hfrom : ∀ {n t}, index ≤ n → m.typing n = some t → (index + 1 ≤ n → ¬ free t) →
    ¬ free t := by
    intro n t hle ht hnext
    rcases Nat.eq_or_lt_of_le hle with rfl | hlt
    · exact hnot t ht
    · exact hnext hlt
  unfold Answer at h ⊢
  cases hr : r.1 with
  | none =>
    rw [hr] at h
    exact ⟨h.1, h.2.1, fun n t hle ht => hfrom hle ht fun hlt => h.2.2 n t hlt ht⟩
  | some x =>
    rw [hr] at h
    obtain ⟨hfirst, hq⟩ := h
    refine ⟨⟨hfirst.aligned, Nat.le_of_succ_le hfirst.le, hfirst.isFree, ?_⟩, hq⟩
    exact fun n t hle hlt ht => hfrom hle ht fun hnext => hfirst.least n t hnext hlt ht

/-- **The search**: from an index in the table or at its end, it returns. -/
theorem allocLoop_answers (h : Decides attempt free frameOf Q m)
    (hlen : m.retypeMap.length * frameSize < 2 ^ 52) (left : Nat) (a : BumpAllocator)
    (ha : a.index + left = m.retypeMap.length) :
    wp (allocLoop env attempt left a) (Answer free frameOf Q m a.index) (fun _ _ => False) m := by
  have hat : ∀ i, i ≤ m.retypeMap.length → ∃ f : RawFrame, f.Aligned ∧ f.number = i ∧
      tryAt env attempt i m = attempt f m := fun i hi =>
    tryAt_of_lt env attempt (Nat.lt_of_le_of_lt (Nat.mul_le_mul_right _ hi) hlen) m
  have hlen' : m.retypeMap.length < 2 ^ 52 := by simp only [frameSize] at hlen; omega
  induction left generalizing a with
  | zero =>
    rw [Nat.add_zero] at ha
    obtain ⟨f, _, hnum, hrun⟩ := hat a.index ha.le
    have hend := hrun.trans (h.outside f (List.getElem?_eq_none (by omega)))
    unfold allocLoop
    rw [wp_bind, wp_of_eq_ok hend]
    refine ⟨rfl, ha, fun n t hle ht => ?_⟩
    simp [Machine.typing, List.getElem?_eq_none (by omega : m.retypeMap.length ≤ n)] at ht
  | succ left ih =>
    obtain ⟨f, hf, hnum, hrun⟩ := hat a.index (by omega)
    have hin : f.number < m.retypeMap.length := by omega
    have he : m.retypeMap[f.number]? = some m.retypeMap[f.number] := List.getElem?_eq_getElem hin
    have ht : m.typing f.number = some m.retypeMap[f.number].get := by simp [Machine.typing, he]
    unfold allocLoop
    rw [wp_bind]
    by_cases hfree : free m.retypeMap[f.number].get
    · obtain ⟨x, m', hdone, hx, hq⟩ := h.done f _ hf he hfree
      rw [wp_of_eq_ok (hrun.trans hdone)]
      refine ⟨?_, hx ▸ hnum.symm, hq⟩
      rw [hx]
      exact ⟨hf, hnum.ge, ⟨_, ht, hfree⟩, fun n t hle hlt => by omega⟩
    · rw [wp_of_eq_ok (hrun.trans (h.retry f _ he hfree))]
      simp only
      rw [Env.add_of_lt env (by omega : a.index + 1 < 2 ^ 64),
        wp_congr (orPanic_ok_bind _ m rfl)]
      refine wp_mono (ih ⟨a.index + 1⟩ (by simp only; omega)) (fun r m' hr => ?_) (fun _ _ he => he)
      refine Answer.of_succ (fun t ht' => ?_) hr
      rw [← hnum, ht] at ht'
      obtain rfl := Option.some.inj ht'
      exact hfree

theorem alloc_answers (env : Env) (h : Decides attempt free frameOf Q m)
    (hlen : m.retypeMap.length * frameSize < 2 ^ 52) (a : BumpAllocator)
    (ha : a.index ≤ m.retypeMap.length) :
    wp (alloc env attempt a) (Answer free frameOf Q m a.index) (fun _ _ => False) m := by
  unfold alloc
  rw [wp_bind, wp_get]
  have hmod : a.index % 2 ^ 52 = a.index :=
    Nat.mod_eq_of_lt (by simp only [frameSize] at hlen; omega)
  rw [hmod]
  exact allocLoop_answers h hlen _ a (by omega)

/-- The call `x` searches: it answers without a panic, and its loop ends by itself, that is a larger
bound on the turns changes nothing. -/
def Searches (env : Env) (x : KM (Option α × BumpAllocator)) (attempt : RawFrame → KM (Attempt α))
    (free : State × Nat → Prop) (frameOf : α → RawFrame) (Q : α → Machine → Prop) (m : Machine)
    (a : BumpAllocator) : Prop :=
  ∃ r m', x m = .ok r m' ∧ Answer free frameOf Q m a.index r m' ∧
    ∀ more, allocLoop env attempt (m.retypeMap.length - a.index % 2 ^ 52 + more) a m = .ok r m'

theorem alloc_searches (h : Decides attempt free frameOf Q m)
    (hlen : m.retypeMap.length * frameSize < 2 ^ 52) (a : BumpAllocator)
    (ha : a.index ≤ m.retypeMap.length) :
    Searches env (alloc env attempt a) attempt free frameOf Q m a := by
  obtain ⟨r, m', hrun, hr⟩ := exists_of_wp (alloc_answers env h hlen a ha)
  refine ⟨r, m', hrun, hr, fun more => ?_⟩
  have hlen' : m.retypeMap.length < 2 ^ 52 := by simp only [frameSize] at hlen; omega
  exact (allocLoop_fuel h hlen' _ more a (by omega) (by omega)).trans hrun

end Spec

end BumpAllocator

end Harmony
