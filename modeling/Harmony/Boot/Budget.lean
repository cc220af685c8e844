import Harmony.Boot.Kmain
import Harmony.Caps.Soundness

/-!
# The system calls of the boot process

The boot process starts with an empty capability table, and `KPtr::drop` gives back two references
where `KPtr::clone` takes one. So every system call fails, and takes one reference for good from the
thread; one that gets as far as a lookup takes one from the capability table as well. `kmain` leaves
two references to the thread and one to the table. When they are used up, the next call panics.

* `wp_handle_idle`, `counts_handle_idle`: one call.
* `Idle.runs_iff`: the runs, for any number of references that are left.
* **`boot_calls_run_out`**: the runs from `kmain` on.
-/

namespace Harmony

open Lib

/-- A thread with an empty capability table runs, with `n` references to the thread and `r` to the
table. -/
structure Idle (env : Env) (thread table : KPtr) (n r : Nat) (k : Kernel) : Prop where
  wired : Wired env k
  backed : Backed env k thread
  active : k.active = some thread
  runs : ∃ t, k.objects thread = some (.thread t) ∧ t.resources = table
  empty : k.objects table = some (.capTable .default)
  threadCount : counters env k thread = some n
  tableCount : counters env k table = some r

/-- The call gets as far as a lookup. -/
def SystemCall.LooksUp (c : SystemCall) : Prop := c.a < 2 ^ 32

instance (c : SystemCall) : Decidable c.LooksUp := inferInstanceAs (Decidable (_ < _))

/-- The answer to a call that finds nothing. -/
def SystemCall.refusal (c : SystemCall) : Int :=
  (if c.LooksUp then CapError.notFound else CapError.invalidArgument).toErrno

/-! ## References that are cloned and dropped -/

section Bounce

variable {c c' : KPtr → Option Nat} {p q : KPtr} {n : Nat}

theorem Ref.step_clone (hp : c p = some n) (hn : n < 16383) :
    Ref.step c (.clone p) = some (Function.update c p (some (n + 1))) := by
  simp only [Ref.step, hp, if_neg (Nat.ne_of_lt hn)]

theorem Ref.step_drop (hp : c p = some (n + 1)) :
    Ref.step c (.drop p) =
      if 1 ≤ n then some (Function.update c p (some (n - 1))) else none := by
  simp only [Ref.step, hp]
  split_ifs <;> first | rfl | omega

/-- A reference taken and given back, with something in between that leaves it alone. -/
theorem play_around {es : List Ref} (hp : c p = some n) (hn : n < 16383)
    (hes : ∀ d, play Ref.step (Function.update c p (some (n + 1))) es = some d →
      d p = some (n + 1)) :
    play Ref.step c (.clone p :: (es ++ [.drop p])) =
      (play Ref.step (Function.update c p (some (n + 1))) es).bind fun d =>
        if 1 ≤ n then some (Function.update d p (some (n - 1))) else none := by
  rw [← List.singleton_append, play_append, play_singleton, Ref.step_clone hp hn, Option.bind_some,
    play_append]
  cases hd : play Ref.step (Function.update c p (some (n + 1))) es with
  | none => rfl
  | some d =>
    rw [Option.bind_some, Option.bind_some, play_singleton]
    exact Ref.step_drop (hes d hd)

theorem play_bounce (hp : c p = some n) (hn : n < 16383) :
    play Ref.step c [.clone p, .drop p] =
      if 1 ≤ n then some (Function.update c p (some (n - 1))) else none := by
  have hself : ∀ d, play Ref.step (Function.update c p (some (n + 1))) [] = some d →
      d p = some (n + 1) := by
    intro d hd
    rw [← Option.some.inj hd, Function.update_self]
  refine (play_around hp hn hself).trans ?_
  show (if 1 ≤ n then some (Function.update (Function.update c p (some (n + 1))) p (some (n - 1)))
    else none) = _
  rw [Function.update_idem]

/-- One reference inside the other. -/
theorem play_bounce_in {r : Nat} (hp : c p = some n) (hq : c q = some r) (hpq : q ≠ p)
    (hn : n < 16383) (hr : r < 16383) :
    play Ref.step c (.clone p :: ([.clone q, .drop q] ++ [.drop p])) =
      if 1 ≤ n ∧ 1 ≤ r then
        some (Function.update (Function.update c p (some (n - 1))) q (some (r - 1)))
      else none := by
  have hinner := play_bounce (c := Function.update c p (some (n + 1)))
    ((Function.update_of_ne hpq _ c).trans hq) hr
  rw [play_around hp hn ?_, hinner]
  · by_cases hr1 : 1 ≤ r
    · rw [if_pos hr1, Option.bind_some, Function.update_comm hpq, Function.update_idem]
      simp only [hr1, and_true]
    · rw [if_neg hr1, if_neg (fun h => hr1 h.2)]
      rfl
  · intro d hd
    rw [hinner] at hd
    split_ifs at hd
    rw [← Option.some.inj hd, Function.update_of_ne (Ne.symm hpq), Function.update_self]

end Bounce

/-! ## One call -/

section Call

variable {env : Env} {k k' : Kernel} {thread table : KPtr} {n r : Nat}

theorem slotOf_default {objects : KPtr → Option Object}
    (h : objects table = some (.capTable .default)) (s : SlotId numSlots) :
    slotOf objects table s = some .default := by
  unfold slotOf
  rw [h]
  rfl

/-- A lookup in an empty table takes the table and finds an empty slot or none. -/
theorem lookup_default {objects : KPtr → Option Object}
    (h : objects table = some (.capTable .default)) (cap : CapId) :
    capabilityScript objects table cap = [.drop table] ∧
      (capabilityOf objects table cap = none ∨ capabilityOf objects table cap = some .default) := by
  have hslot := slotOf_default h
  have hlink : ∀ s, linksOf objects table s = none := fun s => by
    unfold linksOf
    rw [hslot s]
    rfl
  unfold capabilityScript capabilityOf TrieEntry.get
  by_cases hlast : cap.toNat / numSlots = 0
  · -- the id names a slot of the table itself
    have hget : TrieEntry.getInner (M := Id) (linksOf objects) 32 table cap.toNat =
        some (table, Fin.ofNat numSlots cap.toNat) := by
      simp only [TrieEntry.getInner, if_pos hlast]
      rfl
    have hscript : lookupScript objects 32 table cap.toNat = [] := by
      simp only [lookupScript, if_pos hlast]
    rw [hget, hscript]
    refine ⟨?_, .inr (hslot _)⟩
    simp only [hslot]
    rfl
  · -- the id leads through a slot that has no child
    have hget : TrieEntry.getInner (M := Id) (linksOf objects) 32 table cap.toNat = none := by
      simp only [TrieEntry.getInner, if_neg hlast, hlink]
      rfl
    have hscript : lookupScript objects 32 table cap.toNat = [.drop table] := by
      simp only [lookupScript, if_neg hlast, hslot]
      rfl
    rw [hget, hscript]
    exact ⟨rfl, .inl rfl⟩

theorem Idle.ne (h : Idle env thread table n r k) : table ≠ thread := by
  rintro rfl
  obtain ⟨t, ht, _⟩ := h.runs
  rw [h.empty] at ht
  cases ht

/-- The thread and its table, after some references have been passed around. -/
theorem Idle.objects (h : Idle env thread table n r k) {d : KPtr → Int} (ht : Traffic k k' d) :
    (∃ t, k'.objects thread = some (.thread t) ∧ t.resources = table) ∧
      k'.objects table = some (.capTable .default) := by
  rw [ht.objects]
  exact ⟨h.runs, h.empty⟩

/-- `exercise_cap` finds nothing, whatever is asked. -/
theorem wp_exerciseCap_idle (x : Outside) (cap : CapId) (op : Operation)
    (ht : ∃ t, k.objects thread = some (.thread t) ∧ t.resources = table)
    (hempty : k.objects table = some (.capTable .default)) :
    wp (Thread.exerciseCap env x thread cap op)
      (fun res k' => res = .error .notFound ∧ ∃ d, Traffic k k' d)
      (Leaves fun _ _ _ => False) k := by
  obtain ⟨t, ht, hres⟩ := ht
  refine (stays_cloneResources thread).wp_seq (wlp_cloneResources thread) ?_
  rintro root k₁ ⟨t', ht', rfl, h₁⟩
  obtain rfl := Object.thread.inj (Option.some.inj (ht.symm.trans ht'))
  refine (stays_getCapability _ cap).wp_seq (wlp_getCapability _ cap) fun res k₂ h₂ => ?_
  rw [h₁.objects, hres] at h₂
  rcases (lookup_default hempty cap).2 with hnone | hsome
  · rw [hnone] at h₂
    obtain ⟨rfl, h₂⟩ := h₂
    exact ⟨rfl, _, h₁.trans h₂⟩
  · rw [hsome] at h₂
    obtain ⟨rfl, h₂⟩ := h₂
    exact ⟨rfl, _, h₁.trans h₂⟩

theorem counts_exerciseCap_idle (x : Outside) (cap : CapId) (op : Operation) (h : Wired env k)
    (ht : ∃ t, k.objects thread = some (.thread t) ∧ t.resources = table)
    (hempty : k.objects table = some (.capTable .default)) :
    Counts env (Thread.exerciseCap env x thread cap op) [.clone table, .drop table] k := by
  obtain ⟨t, ht, rfl⟩ := ht
  obtain ⟨hscript, hfound⟩ := lookup_default hempty cap
  refine (counts_cloneResources h ht).seq (wlp_cloneResources thread) fun root k₁ hroot => ?_
  obtain ⟨rfl, h₁, hW₁, hb₁, hcap₁⟩ := h.own ht hroot
  have hlookup := counts_getCapability hW₁ hb₁ hcap₁ cap
  rw [h₁.objects, hscript] at hlookup
  show Counts env _ ([.drop t.resources] ++ []) k₁
  refine hlookup.seq (wlp_getCapability t.resources cap) fun res k₂ hres => ?_
  rw [h₁.objects] at hres
  rcases hfound with hnone | hsome
  · rw [hnone] at hres
    obtain ⟨rfl, _⟩ := hres
    exact .pure _
  · rw [hsome] at hres
    obtain ⟨rfl, _⟩ := hres
    exact .pure _

/-- **A call is refused**, and does not switch threads. -/
theorem wp_handle_idle (h : Idle env thread table n r k) (c : SystemCall) :
    wp (handle env c.outside c.a c.op)
      (fun code k' => code = c.refusal ∧ ∃ d, Traffic k k' d) (Leaves fun _ _ _ => False) k := by
  unfold handle Thread.current
  rw [bind_assoc, wp_bind, wp_get, h.active]
  refine (stays_cloneOption (some thread)).wp_seq (wlp_cloneOption (some thread)) ?_
  rintro _ k₁ ⟨rfl, h₁⟩
  dsimp only
  have hdrop : ∀ (code : Int) (k₂ : Kernel) (d : KPtr → Int), Traffic k k₂ d →
      wp (do dropHandle env thread; pure code : CM Int)
        (fun code' k' => code' = code ∧ ∃ d, Traffic k k' d) (Leaves fun _ _ _ => False) k₂ := by
    intro code k₂ d h₂
    exact (stays_dropHandle thread).wp_seq (wlp_dropHandle thread) fun _ k₃ h₃ =>
      ⟨rfl, _, h₂.trans h₃⟩
  by_cases ha : c.a < 2 ^ 32
  · rw [dif_pos ha, show c.refusal = CapError.notFound.toErrno from congrArg _ (if_pos ha)]
    obtain ⟨hruns, hempty⟩ := h.objects h₁
    refine wp_seq (wp_exerciseCap_idle c.outside _ c.op hruns hempty) ?_ fun _ _ hstop => hstop
    rintro _ k₂ ⟨rfl, d, h₂⟩
    exact hdrop _ k₂ _ (h₁.trans h₂)
  · rw [dif_neg ha, show c.refusal = CapError.invalidArgument.toErrno from congrArg _ (if_neg ha)]
    exact hdrop _ k₁ _ h₁

/-- The references a call takes and gives back. -/
def SystemCall.bounces (c : SystemCall) (thread table : KPtr) : List Ref :=
  .clone thread :: ((if c.LooksUp then [.clone table, .drop table] else []) ++ [.drop thread])

theorem counts_handle_idle (h : Idle env thread table n r k) (c : SystemCall) :
    Counts env (handle env c.outside c.a c.op) (c.bounces thread table) k := by
  have hcurrent : Counts env (Thread.current env) [.clone thread] k := by
    refine Plays.skip (x := get) rfl rfl ?_
    rw [h.active]
    exact counts_cloneOption fun q hq => Option.some.inj hq ▸ h.backed
  have hwlp : wlp (Thread.current env)
      (fun q k' => q = some thread ∧ Traffic k k' (ofOption (some thread))) k := by
    unfold Thread.current
    refine wlp_get ?_
    rw [h.active]
    exact wlp_cloneOption (some thread)
  refine hcurrent.seq hwlp ?_
  rintro _ k₁ ⟨rfl, h₁⟩
  dsimp only
  have hdrop : ∀ (code : Int) (k₂ : Kernel), Backed env k₂ thread →
      Counts env (do dropHandle env thread; pure code : CM Int) [.drop thread] k₂ :=
    fun _ _ hb => (counts_dropHandle hb).last fun _ _ => .pure _
  by_cases ha : c.a < 2 ^ 32
  · rw [dif_pos ha, if_pos (show c.LooksUp from ha)]
    obtain ⟨hruns, hempty⟩ := h.objects h₁
    refine (counts_exerciseCap_idle c.outside _ c.op (h.wired.traffic h₁) hruns hempty).seq
      (wlp_of_ok fun res k₂ hok => wp_ok (wp_exerciseCap_idle c.outside _ c.op hruns hempty) hok) ?_
    rintro _ k₂ ⟨rfl, d, h₂⟩
    exact hdrop _ k₂ ((h.backed.traffic h₁).traffic h₂)
  · rw [dif_neg ha, if_neg (show ¬ c.LooksUp from ha)]
    exact hdrop _ k₁ (h.backed.traffic h₁)

/-- **Where there are references left, a call uses one up; where there are none, it panics.** -/
theorem play_bounces (h : Idle env thread table n r k) (hn : n < 16383) (hr : r < 16383)
    (c : SystemCall) : play Ref.step (counters env k) (c.bounces thread table) =
      if 1 ≤ n ∧ (c.LooksUp → 1 ≤ r) then
        some (Function.update (Function.update (counters env k) thread (some (n - 1))) table
          (some (if c.LooksUp then r - 1 else r)))
      else none := by
  unfold SystemCall.bounces
  by_cases hc : c.LooksUp
  · simp only [hc, if_true, forall_const]
    exact play_bounce_in h.threadCount h.tableCount h.ne hn hr
  · simp only [hc, if_false, false_imp_iff, and_true]
    refine (play_bounce h.threadCount hn).trans ?_
    have hsame : Function.update (Function.update (counters env k) thread (some (n - 1))) table
        (some r) = Function.update (counters env k) thread (some (n - 1)) := by
      rw [Function.update_comm h.ne.symm, ← h.tableCount, Function.update_eq_self]
    rw [hsame]

/-- What a call that ends in user mode leaves. -/
theorem Idle.ends (h : Idle env thread table n r k) (hn : n < 16383) (hr : r < 16383)
    {c : SystemCall} (hc : c.Ends env k k') :
    (1 ≤ n ∧ (c.LooksUp → 1 ≤ r)) ∧ k'.objects = k.objects ∧
      Idle env thread table (n - 1) (if c.LooksUp then r - 1 else r) k' := by
  cases hc with
  | dispatched hrun => exact (wp_stop (wp_handle_idle h c) hrun).elim
  | returned hrun =>
    obtain ⟨_, d, ht⟩ := wp_ok (wp_handle_idle h c) hrun
    have hplay := (counts_handle_idle h c).play_eq hrun
    rw [play_bounces h hn hr c] at hplay
    obtain ⟨hleft, hcounters⟩ := Option.ite_none_right_eq_some.mp hplay
    replace hcounters := (Option.some.inj hcounters).symm
    obtain ⟨hruns, hempty⟩ := h.objects ht
    refine ⟨hleft, ht.objects, h.wired.traffic ht, h.backed.traffic ht, ht.active.trans h.active,
      hruns, hempty, ?_, ?_⟩
    · rw [hcounters, Function.update_of_ne h.ne.symm, Function.update_self]
    · rw [hcounters, Function.update_self]

theorem Idle.exists_ends (h : Idle env thread table n r k) (hn : n < 16383) (hr : r < 16383)
    {c : SystemCall} (hleft : 1 ≤ n ∧ (c.LooksUp → 1 ≤ r)) : ∃ k', c.Ends env k k' := by
  have hplay := play_bounces h hn hr c
  rw [if_pos hleft] at hplay
  obtain ⟨code, k', hrun⟩ := (counts_handle_idle h c).returns_iff.mpr ⟨_, hplay⟩
  exact ⟨k', .returned hrun⟩

end Call

/-! ## The runs -/

section Runs

variable {env : Env} {k k' : Kernel} {thread table : KPtr} {n r : Nat} {cs : List SystemCall}

/-- The calls of a run that get as far as a lookup. -/
def lookups (cs : List SystemCall) : Nat := cs.countP (·.LooksUp)

/-- **There are as many calls as references.** -/
theorem Idle.runs_iff (h : Idle env thread table n r k) (hn : n < 16383) (hr : r < 16383) :
    (∃ k', Run (SystemCall.Ends env) k cs k') ↔ cs.length ≤ n ∧ lookups cs ≤ r := by
  -- the references that are left after one call bound the rest of the run
  induction cs generalizing k n r with
  | nil => exact ⟨fun _ => ⟨Nat.zero_le n, Nat.zero_le r⟩, fun _ => ⟨k, .nil k⟩⟩
  | cons c cs ih =>
    have hcount : lookups (c :: cs) = lookups cs + if c.LooksUp then 1 else 0 := by
      simp only [lookups, List.countP_cons, decide_eq_true_eq]
    have hr' : (if c.LooksUp then r - 1 else r) < 16383 := by split_ifs <;> omega
    rw [List.length_cons, hcount]
    constructor
    · rintro ⟨k', hrun⟩
      cases hrun with
      | cons hc hrest =>
        obtain ⟨⟨hn1, hr1⟩, _, hnext⟩ := h.ends hn hr hc
        obtain ⟨hlen, hlook⟩ := (ih hnext (by omega) hr').mp ⟨k', hrest⟩
        split_ifs at hlook ⊢ with hlooks
        · have := hr1 hlooks
          omega
        · omega
    · rintro ⟨hlen, hlook⟩
      have hleft : 1 ≤ n ∧ (c.LooksUp → 1 ≤ r) := by
        refine ⟨by omega, fun hlooks => ?_⟩
        rw [if_pos hlooks] at hlook
        omega
      obtain ⟨k₁, hc⟩ := h.exists_ends hn hr hleft
      obtain ⟨_, _, hnext⟩ := h.ends hn hr hc
      obtain ⟨k', hrest⟩ := (ih hnext (by omega) hr').mpr (by split_ifs at hlook ⊢ <;> omega)
      exact ⟨k', .cons hc hrest⟩

/-- After a run the thread is where it was, with fewer references. -/
theorem Idle.run (h : Idle env thread table n r k) (hn : n < 16383) (hr : r < 16383)
    (hrun : Run (SystemCall.Ends env) k cs k') :
    k'.objects = k.objects ∧ ∃ n' r', Idle env thread table n' r' k' := by
  obtain ⟨hobjects, n', r', _, _, hidle⟩ := hrun.invariant
    (fun k₁ => k₁.objects = k.objects ∧ ∃ n' r', n' < 16383 ∧ r' < 16383 ∧
      Idle env thread table n' r' k₁)
    (fun k₁ c k₂ hk₁ hc => by
      obtain ⟨hobjects, n₁, r₁, hn₁, hr₁, hidle⟩ := hk₁
      obtain ⟨_, hsame, hnext⟩ := hidle.ends hn₁ hr₁ hc
      exact ⟨hsame.trans hobjects, _, _, by omega, by split_ifs <;> omega, hnext⟩)
    ⟨rfl, n, r, hn, hr, h⟩
  exact ⟨hobjects, n', r', hidle⟩

theorem Booted.idle {goblin : Goblin} {program : Program}
    (h : Booted env goblin program k thread table) : Idle env thread table 2 1 k where
  wired := h.guarded.typed.wired
  backed := h.guarded.typed.backed (kindsOf_thread.mpr ⟨_, h.started⟩)
  active := h.active
  runs := ⟨_, h.started, rfl⟩
  empty := h.empty
  threadCount := h.threadCount
  tableCount := h.tableCount

end Runs

/-- **The boot process runs out of system calls.** From `kmain` on, a sequence of calls ends in user
mode, each of them, exactly if there are at most two and at most one of them gets as far as a
lookup. None of them changes an object, and every one is refused. -/
theorem boot_calls_run_out {env : Env} {goblin : Goblin} {program : Program} {x : Outside}
    {m : Machine} {memoryMap : List MapEntry} {thread : KPtr} {ctx : ExecCtx} {k : Kernel}
    (hcovers : DirectMapCovers env memoryMap) (hboot : BootKernelOnly m)
    (h : kmain env goblin program x memoryMap (Kernel.atBoot m) = .error (.dispatched thread ctx) k)
    (cs : List SystemCall) :
    ((∃ k', Run (SystemCall.Ends env) (k.enter ctx) cs k') ↔ cs.length ≤ 2 ∧ lookups cs ≤ 1) ∧
      ∀ k', Run (SystemCall.Ends env) (k.enter ctx) cs k' →
        k'.objects = k.objects ∧ ∀ (c : SystemCall) (code : Int) (k'' : Kernel),
          handle env c.outside c.a c.op k' = .ok code k'' → code = c.refusal := by
  obtain ⟨table, hbooted⟩ := (wp_stop (wp_kmain hcovers hboot) h :)
  have hidle := hbooted.idle
  refine ⟨hidle.runs_iff (by decide) (by decide), fun k' hrun => ?_⟩
  obtain ⟨hobjects, n, r, hlast⟩ := hidle.run (by decide) (by decide) hrun
  exact ⟨hobjects, fun c code k'' hcode => (wp_ok (wp_handle_idle hlast c) hcode).1⟩

/-- Two calls on one capability are one too many. -/
theorem boot_calls_run_out_small : ∃ thread ctx k,
    kmain Env.dev (.always [smallSegment]) smallProgram .free bootedMap
      (Kernel.atBoot bootedSpace) =
      .error (.dispatched thread ctx) k ∧
    (∃ k', Run (SystemCall.Ends Env.dev) (k.enter ctx)
      [⟨.free, 0, .thread .activate⟩, ⟨.free, 2 ^ 32, .thread .activate⟩] k') ∧
    ¬ ∃ k', Run (SystemCall.Ends Env.dev) (k.enter ctx)
      [⟨.free, 0, .thread .activate⟩, ⟨.free, 0, .thread .activate⟩] k' := by
  obtain ⟨thread, ctx, k, hk⟩ := kmain_dispatches
  have hlaw := boot_calls_run_out bootedMap_covered bootedSpace_kernelOnly hk
  refine ⟨thread, ctx, k, hk, (hlaw _).1.mpr (by decide), fun hrun => ?_⟩
  exact absurd ((hlaw _).1.mp hrun) (by decide)

end Harmony
