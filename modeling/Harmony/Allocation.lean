import Harmony.BumpAllocator
import Harmony.KPtr
import Harmony.Lib.Run
import Harmony.Retype.Table

/-!
# No frame is handed out twice

Runs of any number of frame allocators over one retype table, as `kmain` uses them: frames claimed
as `User` or `Kernel` and turned into raw frames, and kernel objects constructed on frames that
`alloc_untyped_frame` only looked at.

An allocator keeps nothing but a cursor, which stays at the frame it returned, and two allocators
know nothing of each other. What keeps their frames apart is the table: a frame is taken by a
claim, a claim needs the entry `(Untyped, 0)`, and no call of a run writes that entry again
(`TakenOnce`).

* `TakenOnce.step`: every call keeps that.
* `allocators_take_once`: so the frames of a whole run are distinct and were `Untyped` at its start.
-/

namespace Harmony

open Lib

/-- The machine, the allocators' cursors, the frames `alloc_untyped_frame` returned, and the frames
handed out or constructed on. -/
structure Pool where
  machine : Machine
  allocators : Nat → BumpAllocator
  offered : List RawFrame
  taken : List RawFrame

/-- One call, on the allocator with this number. -/
inductive AllocCall where
  | user (i : Nat)
  | kernel (i : Nat)
  | untyped (i : Nat)
  /-- `KPtr::new` on a frame from `alloc_untyped_frame`; the pointer is kept. -/
  | construct (f : RawFrame) (value : PageBytes)

namespace Pool

/-- Before the first call. -/
def start (m : Machine) (allocators : Nat → BumpAllocator) : Pool := ⟨m, allocators, [], []⟩

/-- Run an allocation with allocator `i` and book its result; `none` is a panic. -/
def allocate {α : Type} (w : Pool) (i : Nat) (x : BumpAllocator → KM (Option α × BumpAllocator))
    (book : α → Pool → Pool) : Option Pool :=
  match x (w.allocators i) w.machine with
  | .ok (r, a) m =>
    let w' := { w with machine := m, allocators := Function.update w.allocators i a }
    some (r.elim w' fun y => book y w')
  | .error _ _ => none

/-- A frame left the pool. -/
def take (f : RawFrame) (w : Pool) : Pool := { w with taken := f :: w.taken }

/-- A frame was looked at. -/
def offer (f : RawFrame) (w : Pool) : Pool := { w with offered := f :: w.offered }

end Pool

namespace AllocCall

/-- Objects are constructed on the frames `alloc_untyped_frame` returned. -/
def Legal (w : Pool) : AllocCall → Prop
  | .construct f _ => f ∈ w.offered
  | .user _ | .kernel _ | .untyped _ => True

/-- The call, with what it leaves; `none` is a panic. -/
def exec (env : Env) (w : Pool) : AllocCall → Option Pool
  | .user i => w.allocate i (·.allocUserFrame env) fun u => Pool.take u.intoRaw
  | .kernel i => w.allocate i (·.allocKernelFrame env) fun k => Pool.take k.intoRaw
  | .untyped i => w.allocate i (·.allocUntypedFrame env) Pool.offer
  | .construct f value =>
    match KPtr.new env f value w.machine with
    | .ok (.ok _) m => some (({ w with machine := m }).take f)
    | .ok (.error _) m => some { w with machine := m }
    | .error _ _ => none

end AllocCall

/-- One call that returned. -/
def AllocStep (env : Env) (w : Pool) (c : AllocCall) (w' : Pool) : Prop :=
  c.Legal w ∧ c.exec env w = some w'

/-- **The invariant**, against the machine `m₀` of the start: what was taken was free then and is
not `Untyped` now, and a frame that is free now was free then. -/
structure TakenOnce (m₀ : Machine) (w : Pool) : Prop where
  nodup : (w.taken.map RawFrame.number).Nodup
  was_free : ∀ f ∈ w.taken, m₀.typing f.number = some (.untyped, 0)
  claimed : ∀ f ∈ w.taken, w.machine.typing f.number ≠ some (.untyped, 0)
  still_free : ∀ n, w.machine.typing n = some (.untyped, 0) → m₀.typing n = some (.untyped, 0)

namespace TakenOnce

variable {env : Env} {m₀ m' : Machine} {w : Pool}

theorem start (m : Machine) (allocators : Nat → BumpAllocator) :
    TakenOnce m (Pool.start m allocators) where
  nodup := List.nodup_nil
  was_free _ hf := absurd hf List.not_mem_nil
  claimed _ hf := absurd hf List.not_mem_nil
  still_free _ h := h

/-- The cursors and the frames looked at do not matter. -/
theorem congr {w' : Pool} (h : TakenOnce m₀ w) (hm : w'.machine = w.machine)
    (ht : w'.taken = w.taken) : TakenOnce m₀ w' := by
  obtain ⟨h1, h2, h3, h4⟩ := h
  constructor
  · rwa [ht]
  · rwa [ht]
  · rwa [ht, hm]
  · rwa [hm]

/-- A free frame is claimed and taken. -/
theorem take {f : RawFrame} (h : TakenOnce m₀ w)
    (hfree : w.machine.typing f.number = some (.untyped, 0))
    (hself : m'.typing f.number ≠ some (.untyped, 0))
    (hne : ∀ n, n ≠ f.number → m'.typing n = w.machine.typing n) :
    TakenOnce m₀ (({ w with machine := m' }).take f) := by
  -- a frame taken before is not free any more, so it is another one
  have hother : ∀ g ∈ w.taken, g.number ≠ f.number :=
    fun g hg heq => h.claimed g hg (heq ▸ hfree)
  constructor
  · simp only [Pool.take, List.map_cons, List.nodup_cons]
    refine ⟨fun hmem => ?_, h.nodup⟩
    obtain ⟨g, hg, heq⟩ := List.mem_map.mp hmem
    exact hother g hg heq
  · intro g hg
    rcases List.mem_cons.mp hg with rfl | hg
    · exact h.still_free _ hfree
    · exact h.was_free g hg
  · intro g hg
    rcases List.mem_cons.mp hg with rfl | hg
    · exact hself
    · exact fun hc => h.claimed g hg ((hne _ (hother g hg)).symm.trans hc)
  · intro n hn
    by_cases heq : n = f.number
    · subst heq
      exact absurd hn hself
    · exact h.still_free n ((hne n heq).symm.trans hn)

theorem take_claimed {st : State} {f : RawFrame} (hst : st ≠ .untyped) (h : TakenOnce m₀ w)
    (hc : BumpAllocator.Claimed st w.machine f m') :
    TakenOnce m₀ (({ w with machine := m' }).take f) :=
  h.take hc.was_untyped (by simp [hc.typing_self, hst]) (fun _ => hc.typing_ne)

/-- An allocation that leaves the machine, or whose frame can be booked. -/
theorem allocate {α : Type} {x : BumpAllocator → KM (Option α × BumpAllocator)}
    {book : α → Pool → Pool} {Q : α → Machine → Prop} {E : Panic → Machine → Prop} {i : Nat}
    {w' : Pool} (h : TakenOnce m₀ w)
    (hx : wp (x (w.allocators i)) (BumpAllocator.Found Q w.machine) E w.machine)
    (hbook : ∀ y m' allocators, Q y m' →
      TakenOnce m₀ (book y { w with machine := m', allocators := allocators }))
    (hrun : w.allocate i x book = some w') : TakenOnce m₀ w' := by
  unfold Pool.allocate at hrun
  cases hres : x (w.allocators i) w.machine with
  | error p m' =>
    rw [hres] at hrun
    exact absurd hrun (by simp)
  | ok r m' =>
    have hfound := wp_ok hx hres
    rw [hres] at hrun
    obtain ⟨_ | y, a⟩ := r
    · obtain rfl : m' = w.machine := hfound
      obtain rfl := Option.some.inj hrun
      exact h.congr rfl rfl
    · obtain rfl := Option.some.inj hrun
      exact hbook y m' _ hfound

/-- **Every call keeps the invariant.** -/
theorem step {w' : Pool} {c : AllocCall} (h : TakenOnce m₀ w) (hs : AllocStep env w c w') :
    TakenOnce m₀ w' := by
  obtain ⟨_, hrun⟩ := hs
  cases c with
  | user i =>
    refine h.allocate (BumpAllocator.wp_allocUserFrame _) (fun u m' allocators hc => ?_) hrun
    exact (h.take_claimed (by decide) hc).congr rfl rfl
  | kernel i =>
    refine h.allocate (BumpAllocator.wp_allocKernelFrame _) (fun k m' allocators hc => ?_) hrun
    exact (h.take_claimed (by decide) hc).congr rfl rfl
  | untyped i =>
    refine h.allocate (BumpAllocator.wp_allocUntypedFrame _) (fun f m' allocators hc => ?_) hrun
    exact h.congr hc.1 rfl
  | construct f value =>
    simp only [AllocCall.exec] at hrun
    cases hres : KPtr.new env f value w.machine with
    | error p m' =>
      rw [hres] at hrun
      exact absurd hrun (by simp)
    | ok r m' =>
      have hnew := wp_ok (KPtr.wp_new env f value w.machine) hres
      rw [hres] at hrun
      cases r with
      | error e =>
        obtain rfl := Option.some.inj hrun
        exact h.congr hnew rfl
      | ok p =>
        obtain ⟨e, e', he, hg, hg', _, _, rfl⟩ := hnew
        obtain rfl := Option.some.inj hrun
        refine h.take (by simp [Machine.typing, he, hg]) ?_ (fun n hn => ?_)
        · have hself := Machine.getElem?_setEntry_self e' he
          simp only [Machine.typing, Machine.store]
          rw [hself]
          simp [hg']
        · have hother : (w.machine.setEntry f.number e').retypeMap[n]? = w.machine.retypeMap[n]? :=
            Machine.getElem?_setEntry_ne hn
          simp only [Machine.typing, Machine.store]
          rw [hother]

end TakenOnce

/-- What the three methods answer from an allocator whose cursor is in the table or at its end. -/
structure FindsNext (env : Env) (m : Machine) (a : BumpAllocator) : Prop where
  user : BumpAllocator.Searches env (a.allocUserFrame env)
    (fun f => return .ofRetype (← f.tryIntoUser)) (· = (.untyped, 0)) UserFrame.frame
    (fun u m' => BumpAllocator.Claimed .user m u.frame m') m a
  kernel : BumpAllocator.Searches env (a.allocKernelFrame env)
    (fun f => return .ofRetype (← f.tryIntoKernel)) (· = (.untyped, 0)) KernelFrame.frame
    (fun k m' => BumpAllocator.Claimed .kernel m k.frame m') m a
  untyped : BumpAllocator.Searches env (a.allocUntypedFrame env)
    (fun f => return .ofAsType (← f.tryAsUntyped)) (fun t => t.1 = .untyped) id
    (fun _ m' => m' = m) m a

/-- **The frame allocator.** Each method finds the next free frame from the cursor on; and over
every run, on any number of allocators, the frames handed out or constructed on are distinct and
were `Untyped` at its start. -/
theorem allocators_take_once (env : Env) (m : Machine)
    (hlen : m.retypeMap.length * frameSize < 2 ^ 52) :
    (∀ a : BumpAllocator, a.index ≤ m.retypeMap.length → FindsNext env m a) ∧
      ∀ allocators calls w, Run (AllocStep env) (Pool.start m allocators) calls w →
        (w.taken.map RawFrame.number).Nodup ∧
          ∀ f ∈ w.taken, m.typing f.number = some (.untyped, 0) := by
  constructor
  · intro a ha
    constructor
    · exact BumpAllocator.alloc_searches BumpAllocator.decides_user hlen a ha
    · exact BumpAllocator.alloc_searches BumpAllocator.decides_kernel hlen a ha
    · exact BumpAllocator.alloc_searches BumpAllocator.decides_untyped hlen a ha
  · intro allocators calls w hrun
    have hinv : TakenOnce m w :=
      hrun.invariant (TakenOnce m) (fun _ _ _ => TakenOnce.step) (TakenOnce.start m allocators)
    exact ⟨hinv.nodup, hinv.was_free⟩

/-- On a table of two frames: from its start and from its end, and two allocators that each take
one. -/
theorem allocators_take_once_twoFrames :
    FindsNext Env.dev twoFrames ⟨0⟩ ∧ FindsNext Env.dev twoFrames ⟨2⟩ ∧
    ∃ w, Run (AllocStep Env.dev) (Pool.start twoFrames fun _ => ⟨0⟩) [.user 0, .kernel 1] w ∧
      w.taken.length = 2 ∧ (w.taken.map RawFrame.number).Nodup ∧
      ∀ f ∈ w.taken, twoFrames.typing f.number = some (.untyped, 0) := by
  obtain ⟨hfinds, hruns⟩ := allocators_take_once Env.dev twoFrames (by decide)
  obtain ⟨w₁, h₁, w₂, h₂, hlength⟩ :
      ∃ w₁, (AllocCall.user 0).exec Env.dev (Pool.start twoFrames fun _ => ⟨0⟩) = some w₁ ∧
        ∃ w₂, (AllocCall.kernel 1).exec Env.dev w₁ = some w₂ ∧ w₂.taken.length = 2 :=
    ⟨_, rfl, _, rfl, by decide +kernel⟩
  have hrun : Run (AllocStep Env.dev) (Pool.start twoFrames fun _ => ⟨0⟩) [.user 0, .kernel 1] w₂ :=
    .cons ⟨trivial, h₁⟩ (.cons ⟨trivial, h₂⟩ (.nil _))
  exact ⟨hfinds ⟨0⟩ (by decide), hfinds ⟨2⟩ (by decide), w₂, hrun, hlength, hruns _ _ _ hrun⟩

end Harmony
