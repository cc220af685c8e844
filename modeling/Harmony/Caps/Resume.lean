import Harmony.Caps.Switch

/-!
# What a resumed thread sees

`Thread::dispatch` saves the registers of the thread that ran with the saver it is given, and loads
those of the thread it switches to. `SyscallCtx::save_state` writes the control and the preserved
registers and leaves the scratch registers, `rax` among them, as they are; so what a thread sees
when it runs again depends on every saver it was ever suspended with (`suspensions`).

* `Dispatch.Step.regs_eq`, `regs_of_run`: the registers kept for a thread are its first ones with
  its suspensions replayed on them (`Saver.replay`), whatever the other threads do.
* `resumed_context_iff`: each dispatch loads what the thread's last saver saved; `rax` is 0 after a
  system call exactly if the last `IrqCtx` before it, or the thread's first registers, had it 0.
-/

namespace Harmony

open Lib

/-! ## Savers in a row -/

namespace Saver

/-- The registers once the savers have saved, one after the other. -/
def replay (regs : Regs) (savers : List Saver) : Regs :=
  savers.foldl (fun regs saver => saver.saveState regs) regs

/-- The `rax` that is saved then: only an `IrqCtx` writes it. -/
def lastRax (first : BitVec 64) (savers : List Saver) : BitVec 64 :=
  savers.foldl (fun rax saver => match saver with
    | .irq ctx => ctx.scratchRegs.rax
    | _ => rax) first

/-- What a thread last suspended with the saver expects to see: the control and preserved registers
and `rax = 0` after a system call, all registers after an interrupt. -/
def Expects : Saver → Regs → Prop
  | .noop, _ => True
  | .syscall ctx, regs => regs.control = ctx.controlRegs ∧ regs.preserved = ctx.preservedRegs ∧
      regs.scratch.rax = 0
  | .irq ctx, regs => regs.control = ctx.controlRegs ∧ regs.preserved = ctx.preservedRegs ∧
      regs.scratch = ctx.scratchRegs

@[simp] theorem replay_nil (regs : Regs) : replay regs [] = regs := rfl

theorem replay_append (regs : Regs) (ss ts : List Saver) :
    replay regs (ss ++ ts) = replay (replay regs ss) ts := List.foldl_append

theorem rax_replay (regs : Regs) (savers : List Saver) :
    (replay regs savers).scratch.rax = lastRax regs.scratch.rax savers := by
  induction savers generalizing regs with
  | nil => rfl
  | cons saver savers ih =>
    cases saver with
    | noop => exact ih regs
    | syscall ctx => exact ih (ctx.saveState regs)
    | irq ctx => exact ih (ctx.saveState regs)

/-- **The last saver's registers are there**, but for `rax` after a system call. -/
theorem expects_replay_iff {saver : Saver} {savers : List Saver} (regs : Regs)
    (hlast : savers.getLast? = some saver) :
    saver.Expects (replay regs savers) ↔
      ∀ ctx, saver = .syscall ctx → lastRax regs.scratch.rax savers = 0 := by
  obtain ⟨init, rfl⟩ : ∃ init, savers = init ++ [saver] := List.getLast?_eq_some_iff.mp hlast
  rw [← rax_replay, replay_append]
  cases saver with
  | noop => exact ⟨fun _ ctx h => (by cases h), fun _ => trivial⟩
  | irq ctx => exact ⟨fun _ ctx' h => (by cases h), fun _ => ⟨rfl, rfl, rfl⟩⟩
  | syscall ctx => exact ⟨fun h _ _ => h.2.2, fun h => ⟨rfl, rfl, h ctx rfl⟩⟩

end Saver

/-! ## Dispatches -/

/-- A dispatch that left the kernel: the thread, the saver it was called with, and the context it
loaded. -/
structure Dispatch where
  thread : KPtr
  saver : Saver
  loaded : ExecCtx

/-- `Thread::dispatch`, on to user mode. -/
def Dispatch.Step (env : Env) (k : Kernel) (c : Dispatch) (k' : Kernel) : Prop :=
  (Thread.dispatch env c.thread c.saver : CM Unit) k = .error (.dispatched c.thread c.loaded) k'

/-- The registers kept for a thread. -/
def Kernel.regs (k : Kernel) (p : KPtr) : Option Regs :=
  match k.objects p with
  | some (.thread t) => some t.regs
  | _ => none

/-- The savers thread `p` is suspended with in a sequence of dispatches, where `active` runs at
first. -/
def suspensions (p : KPtr) : Option KPtr → List Dispatch → List Saver
  | _, [] => []
  | active, c :: cs =>
    (if active = some p then [c.saver] else []) ++ suspensions p (some c.thread) cs

section Dispatches

variable {env : Env} {k k' : Kernel} {c : Dispatch} {cs : List Dispatch}

theorem Kernel.regs_of_thread {p : KPtr} {t : Thread} (h : k.objects p = some (.thread t)) :
    k.regs p = some t.regs := by
  unfold Kernel.regs
  rw [h]

theorem Dispatch.Step.left (h : c.Step env k k') :
    Left c.saver c.thread k k.active c.thread c.loaded k' := by
  have hspec : wp (Thread.dispatch env c.thread c.saver : CM Unit) _ _ k := wp_dispatch
  unfold wp at hspec
  rw [show Thread.dispatch env c.thread c.saver k = _ from h] at hspec
  exact hspec

/-- A dispatch writes the thread that ran and no other object. -/
theorem Dispatch.Step.objects_eq (h : c.Step env k k') {p : KPtr} (hp : k.active ≠ some p) :
    k'.objects p = k.objects p := by
  have hsuspended := h.left.suspended
  cases hactive : k.active with
  | none =>
    rw [hactive] at hsuspended
    exact congrFun hsuspended p
  | some q =>
    rw [hactive] at hsuspended hp
    obtain ⟨t, _, hobjects⟩ := hsuspended
    rw [hobjects, Function.update_of_ne fun h => hp (by rw [h])]

/-- **One dispatch**: the thread that ran has its registers saved, every other keeps its own. -/
theorem Dispatch.Step.regs_eq (h : c.Step env k k') (p : KPtr) :
    k'.regs p = (k.regs p).map fun regs => Saver.replay regs (suspensions p k.active [c]) := by
  by_cases hp : k.active = some p
  · have hsuspended := h.left.suspended
    rw [hp] at hsuspended
    obtain ⟨t, ht, hobjects⟩ := hsuspended
    have ht' : k'.objects p = some (.thread { t with regs := c.saver.saveState t.regs }) := by
      rw [hobjects, Function.update_self]
    rw [Kernel.regs_of_thread ht, Kernel.regs_of_thread ht', suspensions, if_pos hp]
    rfl
  · have hsame : k'.regs p = k.regs p := by
      unfold Kernel.regs
      rw [h.objects_eq hp]
    rw [hsame, suspensions, if_neg hp]
    exact Option.map_id'.symm

/-- The context loaded is the one kept for the thread. -/
theorem Dispatch.Step.loaded_eq (h : c.Step env k k') : k'.regs c.thread = some c.loaded.regs := by
  obtain ⟨t, ht, hctx⟩ := h.left.loaded
  rw [Kernel.regs_of_thread ht, hctx]
  rfl

/-- **A run**: the registers kept for a thread are its first ones with its suspensions replayed. -/
theorem regs_of_run (hrun : Run (Dispatch.Step env) k cs k') (p : KPtr) :
    k'.regs p = (k.regs p).map fun regs => Saver.replay regs (suspensions p k.active cs) := by
  induction hrun with
  | nil k => exact Option.map_id'.symm
  | @cons k k₁ k' c cs hstep _ ih =>
    rw [ih, hstep.regs_eq p, Option.map_map, hstep.left.active]
    congr 1
    funext regs
    simp only [Function.comp_apply, suspensions, List.append_nil, Saver.replay_append]

/-- What a dispatch of a run loads. -/
theorem loaded_of_run {pre post : List Dispatch} (hrun : Run (Dispatch.Step env) k cs k')
    (hcs : cs = pre ++ c :: post) :
    ∃ regs, k.regs c.thread = some regs ∧
      c.loaded.regs = Saver.replay regs (suspensions c.thread k.active (pre ++ [c])) := by
  rw [hcs, List.append_cons] at hrun
  obtain ⟨k₂, hpre, _⟩ := hrun.split
  obtain ⟨k₁, _, hstep⟩ := hpre.concat_inv
  have hregs := regs_of_run hpre c.thread
  rw [hstep.loaded_eq] at hregs
  obtain ⟨regs, hregs, hloaded⟩ := Option.map_eq_some_iff.mp hregs.symm
  exact ⟨regs, hregs, hloaded.symm⟩

end Dispatches

/-! ## The law -/

/-- **The law**: whenever a thread that was suspended is dispatched, it sees what its last saver
makes it expect. -/
def ResumesAsSaved (k : Kernel) (cs : List Dispatch) : Prop :=
  ∀ pre c post saver, cs = pre ++ c :: post →
    (suspensions c.thread k.active (pre ++ [c])).getLast? = some saver →
    saver.Expects c.loaded.regs

/-- Whenever a thread last suspended in a system call is dispatched, the `rax` kept for it is 0:
that of the last `IrqCtx` it was ever suspended with, or the first one it had. -/
def RaxCleared (k : Kernel) (cs : List Dispatch) : Prop :=
  ∀ pre c post ctx regs, cs = pre ++ c :: post →
    (suspensions c.thread k.active (pre ++ [c])).getLast? = some (.syscall ctx) →
    k.regs c.thread = some regs →
    Saver.lastRax regs.scratch.rax (suspensions c.thread k.active (pre ++ [c])) = 0

/-- **What a resumed thread sees.** A dispatch changes the registers of no thread but the one that
ran; it loads a thread's own registers, with its suspensions replayed on them; and over a run of
dispatches the law holds exactly if `rax` was 0 wherever a thread comes back from a system call. -/
theorem resumed_context_iff (env : Env) (k k' : Kernel) (cs : List Dispatch)
    (hrun : Run (Dispatch.Step env) k cs k') :
    (∀ pre c post k₁ k₂, cs = pre ++ c :: post → Run (Dispatch.Step env) k pre k₁ →
      c.Step env k₁ k₂ → ∀ p, k₁.active ≠ some p → k₂.regs p = k₁.regs p) ∧
    (∀ pre c post, cs = pre ++ c :: post → ∃ regs, k.regs c.thread = some regs ∧
      c.loaded.regs = Saver.replay regs (suspensions c.thread k.active (pre ++ [c]))) ∧
    (ResumesAsSaved k cs ↔ RaxCleared k cs) := by
  refine ⟨fun pre c post k₁ k₂ _ _ hstep p hp => ?_,
    fun pre c post hcs => loaded_of_run hrun hcs, ?_⟩
  · unfold Kernel.regs
    rw [hstep.objects_eq hp]
  constructor
  · intro hlaw pre c post ctx regs hcs hlast hregs
    have hexpects := hlaw pre c post _ hcs hlast
    obtain ⟨regs', hregs', hloaded⟩ := loaded_of_run hrun hcs
    obtain rfl := Option.some.inj (hregs.symm.trans hregs')
    rw [hloaded] at hexpects
    exact (Saver.expects_replay_iff regs hlast).mp hexpects ctx rfl
  · intro hcleared pre c post saver hcs hlast
    obtain ⟨regs, hregs, hloaded⟩ := loaded_of_run hrun hcs
    rw [hloaded, Saver.expects_replay_iff regs hlast]
    rintro ctx rfl
    exact hcleared pre c post ctx regs hcs hlast hregs

/-! ## A thread that dispatches itself -/

/-- The context a stop loaded. -/
def Stop.loaded : Stop → Option ExecCtx
  | .panic _ => none
  | .dispatched _ ctx => some ctx

/-- A dispatch that is known to leave the kernel is a step. -/
theorem Dispatch.exists_step {env : Env} {k : Kernel} {this : KPtr} {saver : Saver}
    {Q : ExecCtx → Kernel → Prop}
    (h : wp (Thread.dispatch env this saver : CM Unit) (fun _ _ => False)
      (fun e k' => ∃ ctx ∈ e.loaded, Q ctx k') k) :
    ∃ ctx k', Dispatch.Step env k ⟨this, saver, ctx⟩ k' ∧ Q ctx k' := by
  obtain ⟨e, k', hrun, ctx, hctx, hQ⟩ := exists_stop_of_wp h
  have hspec : wp (Thread.dispatch env this saver : CM Unit) _ _ k := wp_dispatch
  unfold wp at hspec
  rw [hrun] at hspec
  cases e with
  | panic p => cases hctx
  | dispatched thread ctx' =>
    obtain rfl := Option.some.inj hctx
    obtain rfl := hspec.thread_eq
    exact ⟨ctx', k', hrun, hQ⟩

/-- A system call's context, and an interrupt's with `rax = 7`. -/
def someSyscall : SyscallCtx := ⟨⟨0x202, 0x7000, 0x400000⟩, ⟨1, 2, 3, 4, 5, 6⟩⟩

def someIrq : IrqCtx := ⟨⟨0x202, 0x7000, 0x400000⟩, ⟨1, 2, 3, 4, 5, 6⟩, ⟨7, 0, 0, 0, 0, 0, 0, 0, 0⟩⟩

theorem resumed_context_iff_self : ∃ c : Dispatch, c.thread = pointerTo 1 ∧
    c.saver = .syscall someSyscall ∧ (∃ k', Run (Dispatch.Step Env.dev) oneThread [c] k') ∧
    ResumesAsSaved oneThread [c] := by
  have hrun : wp (Thread.dispatch Env.dev (pointerTo 1) (.syscall someSyscall) : CM Unit)
      (fun _ _ => False) (fun e _ => ∃ ctx ∈ e.loaded, True) oneThread := by
    decide +kernel
  obtain ⟨ctx, k', hstep, _⟩ := Dispatch.exists_step hrun
  have hrun : Run (Dispatch.Step Env.dev) oneThread [⟨pointerTo 1, .syscall someSyscall, ctx⟩] k' :=
    .cons hstep (.nil k')
  refine ⟨_, rfl, rfl, ⟨k', hrun⟩, (resumed_context_iff _ _ _ _ hrun).2.2.mpr ?_⟩
  intro pre c post ctx' regs hcs _ hregs
  obtain ⟨rfl, rfl, rfl⟩ : pre = [] ∧ c = ⟨pointerTo 1, .syscall someSyscall, ctx⟩ ∧ post = [] := by
    simpa [List.singleton_eq_append_iff] using hcs
  obtain rfl := Option.some.inj hregs
  rfl

/-- **A thread interrupted with `rax = 7` and then suspended in a system call comes back from it
with `rax = 7`**: to the thread, `Activate` has failed. -/
theorem activate_returns_seven : ∃ (c c' : Dispatch) (k' : Kernel),
    Run (Dispatch.Step Env.dev) oneThread [c, c'] k' ∧ c.saver = .irq someIrq ∧
    c'.saver = .syscall someSyscall ∧ c'.thread = pointerTo 1 ∧ c'.loaded.regs.scratch.rax = 7 ∧
    ¬ ResumesAsSaved oneThread [c, c'] := by
  have hruns : wp (Thread.dispatch Env.dev (pointerTo 1) (.irq someIrq) : CM Unit)
    (fun _ _ => False)
      (fun e k₁ => ∃ _ctx ∈ e.loaded,
        wp (Thread.dispatch Env.dev (pointerTo 1) (.syscall someSyscall) : CM Unit)
          (fun _ _ => False) (fun e' _ => ∃ ctx ∈ e'.loaded, ctx.regs.scratch.rax = 7) k₁)
      oneThread := by
    decide +kernel
  obtain ⟨ctx, k₁, hstep, hrun⟩ := Dispatch.exists_step hruns
  obtain ⟨ctx', k', hstep', hrax⟩ := Dispatch.exists_step hrun
  refine ⟨_, _, k', .cons hstep (.cons hstep' (.nil k')), rfl, rfl, rfl, hrax, fun hlaw => ?_⟩
  have hexpects := hlaw [_] _ [] (.syscall someSyscall) rfl rfl
  have hzero : ctx'.regs.scratch.rax = 0 := hexpects.2.2
  rw [hrax] at hzero
  exact absurd hzero (by decide)

end Harmony
