import Harmony.Caps.Kernel

/-!
# A system call from both sides

`kapi::syscall` passes six words and takes an answer; `syscall::handle` takes the words and gives
one. The two are compiled apart and share `kapi` only.

`exerciseCap` is given the operation decoded. `Operation.ofArgs` decodes it, and `asCapTableOp` and
`asThreadOp` are then what `from_args` gives, for all words on which `from_args` is written.

* `syscalls_round_trip`: what userspace encodes is what the kernel decodes, which words decode and
  to what, and the answer.
-/

namespace Harmony

open Lib SyscallOp

/-! ## The kernel's side -/

/-- The operation that the words stand for, if any. -/
def Operation.ofArgs (args : SyscallArgs) : Operation :=
  match (fromArgs args : Except Panic (Except InvalidOperation (CapTableOp numSlots))),
    (fromArgs args : Except Panic (Except InvalidOperation ThreadOp)) with
  | .ok (.ok op), _ => .capTable op
  | _, .ok (.ok op) => .thread op
  | _, _ => .invalid

/-- `syscall::handle`, on words that `from_args` is written for. -/
def handleWords (env : Env) (x : Outside) (w : Words) : CM Int :=
  handle env x w.a.toNat (.ofArgs w.args)

section Decoding

variable {args : SyscallArgs}

theorem Operation.ofArgs_capTable {op : CapTableOp numSlots} (h : fromArgs args = .ok (.ok op)) :
    Operation.ofArgs args = .capTable op := by
  unfold Operation.ofArgs
  rw [h]

theorem Operation.ofArgs_thread {op : ThreadOp} (h : fromArgs args = .ok (.ok op)) :
    Operation.ofArgs args = .thread op := by
  unfold Operation.ofArgs
  split
  · rename_i op' htable
    exact absurd (ThreadOp.fromArgs_eq_ok.mp h)
      (fun h' => (CapTableOp.fromArgs_eq_ok.mp htable).not_thread h')
  · rename_i op' hthread _
    rw [h] at hthread
    cases hthread
    rfl
  · rename_i hno
    exact absurd h (hno op)

/-- **The operation that `exercise_cap` meets** on a table is what `CapTableOp::from_args` gives. -/
theorem Operation.asCapTableOp_ofArgs {r : Except InvalidOperation (CapTableOp numSlots)}
    (h : fromArgs args = .ok r) : (Operation.ofArgs args).asCapTableOp = r.toOption := by
  cases r with
  | ok op =>
    rw [Operation.ofArgs_capTable h]
    rfl
  | error e =>
    unfold Operation.ofArgs
    rw [h]
    split
    · rename_i hok
      cases hok
    · rfl
    · rfl

/-- On a thread it is what `ThreadOp::from_args` gives. -/
theorem Operation.asThreadOp_ofArgs {r : Except InvalidOperation ThreadOp}
    (h : fromArgs args = .ok r) : (Operation.ofArgs args).asThreadOp = r.toOption := by
  cases r with
  | ok op =>
    rw [Operation.ofArgs_thread h]
    rfl
  | error e =>
    unfold Operation.ofArgs
    rw [h]
    split
    · rfl
    · rename_i hok _
      cases hok
    · rfl

end Decoding

/-! ## The answer -/

/-- What `handle` answers to a result: `result.try_into().unwrap()`, or the errno. -/
def answer : Except CapError Nat → Except Panic Int
  | .ok n => if n < 2 ^ 63 then .ok n else .error (.unwrap "TryFromIntError")
  | .error e => .ok e.toErrno

section Answers

variable {env : Env} {x : Outside} {a : UInt64} {cap : CapId} {op : Operation}
  {k k₁ k₂ k₃ : Kernel} {self : KPtr} {r : Except CapError Nat} {code : Int}

theorem answer_ok (hr : ∀ n, r = .ok n → n ≤ 2 ^ 63 - 1) : ∃ code, answer r = .ok code := by
  cases r with
  | ok n =>
    have hn := hr n rfl
    exact ⟨n, if_pos (by omega)⟩
  | error e => exact ⟨e.toErrno, rfl⟩

/-- **`syscall` takes an answer back to its result.** -/
theorem syscallResult_answer (env : Env) (h : answer r = .ok code) :
    syscallResult env code = .ok r := by
  cases r with
  | ok n =>
    simp only [answer] at h
    split at h
    · cases h
      exact syscallResult_code env n
    · cases h
  | error e =>
    cases h
    exact syscallResult_toErrno env e

/-- A first word that is a capability is taken for it. -/
theorem CapId.tryFrom_cases (a : UInt64) :
    (∃ h : a.toNat < 2 ^ 32, CapId.tryFrom a = some (UInt32.ofNatLT a.toNat h)) ∨
      (¬ a.toNat < 2 ^ 32 ∧ CapId.tryFrom a = none) := by
  unfold CapId.tryFrom
  by_cases h : a.toNat < 2 ^ 32
  · exact .inl ⟨h, dif_pos h⟩
  · exact .inr ⟨h, dif_neg h⟩

/-- **`handle` answers the result of `exercise_cap`.** -/
theorem handle_answers (hcap : CapId.tryFrom a = some cap)
    (hself : Thread.current env k = .ok (some self) k₁)
    (hcall : Thread.exerciseCap env x self cap op k₁ = .ok r k₂) (hcode : answer r = .ok code)
    (hdrop : dropHandle env self k₂ = .ok () k₃) : handle env x a.toNat op k = .ok code k₃ := by
  obtain ⟨hlt, hsome⟩ | ⟨_, hnone⟩ := CapId.tryFrom_cases a
  · obtain rfl := Option.some.inj (hsome.symm.trans hcap)
    unfold handle
    rw [bind_of_eq_ok hself]
    simp only [dif_pos hlt]
    rw [bind_of_eq_ok hcall]
    cases r with
    | ok n =>
      simp only [answer] at hcode
      split at hcode
      · rename_i hn
        cases hcode
        simp only [if_pos hn]
        exact bind_of_eq_ok hdrop
      · cases hcode
    | error e =>
      cases hcode
      exact bind_of_eq_ok hdrop
  · rw [hnone] at hcap
    cases hcap

/-- It answers nothing else, but to a first word that is no capability. -/
theorem handle_answered (hrun : handle env x a.toNat op k = .ok code k₃) :
    (CapId.tryFrom a = none ∧ answer (.error .invalidArgument) = .ok code) ∨
    ∃ cap self k₁ r k₂, CapId.tryFrom a = some cap ∧
      Thread.current env k = .ok (some self) k₁ ∧
      Thread.exerciseCap env x self cap op k₁ = .ok r k₂ ∧ answer r = .ok code := by
  obtain ⟨active, k₁, hself, hrun⟩ := bind_eq_ok hrun
  cases active with
  | none => cases hrun
  | some self =>
    obtain ⟨hlt, hsome⟩ | ⟨hge, hnone⟩ := CapId.tryFrom_cases a
    · simp only [dif_pos hlt] at hrun
      obtain ⟨r, k₂, hcall, hrun⟩ := bind_eq_ok hrun
      refine .inr ⟨_, self, k₁, r, k₂, hsome, hself, hcall, ?_⟩
      cases r with
      | ok n =>
        dsimp only at hrun
        split at hrun
        · rename_i hn
          obtain ⟨_, _, hcode, hrun⟩ := bind_eq_ok hrun
          cases hcode
          obtain ⟨_, _, _, hrun⟩ := bind_eq_ok hrun
          cases hrun
          exact if_pos hn
        · cases hrun
      | error e =>
        obtain ⟨_, _, hcode, hrun⟩ := bind_eq_ok hrun
        cases hcode
        obtain ⟨_, _, _, hrun⟩ := bind_eq_ok hrun
        cases hrun
        rfl
    · simp only [dif_neg hge] at hrun
      obtain ⟨_, _, _, hrun⟩ := bind_eq_ok hrun
      cases hrun
      exact .inl ⟨hnone, rfl⟩

end Answers

/-! ## Both sides -/

/-- The operation arrives: with any capability, its words decode to the two. -/
def Arrives {T : Type} [SyscallOp T] (op : T) : Prop :=
  ∀ cap : CapId, ∃ args, intoArgs op = .ok args ∧ CapId.tryFrom (args.words cap).a = some cap ∧
    fromArgs (args.words cap).args = .ok (.ok op)

/-- Decoded and encoded again, the words are the same as far as the operation uses them. -/
def Reencodes (T : Type) [SyscallOp T] (w : Words) : Prop :=
  ∀ op : T, fromArgs w.args = .ok (.ok op) → ∃ args, intoArgs op = .ok args ∧ args.op = w.b ∧
    args.operands.take (arity op) = w.args.operands.take (arity op)

theorem SyscallOp.Lawful.arrives {T : Type} [SyscallOp T] (h : Lawful T) {op : T}
    {args : SyscallArgs} (hargs : intoArgs op = .ok args) : Arrives op := fun _ =>
  ⟨args, hargs, CapId.tryFrom_eq_some.mpr rfl, h.fromArgs_intoArgs op args hargs⟩

theorem SyscallOp.Lawful.reencodes {T : Type} [SyscallOp T] (h : Lawful T) {w : Words}
    (hargs : ∀ op : T, fromArgs w.args = .ok (.ok op) → ∃ args, intoArgs op = .ok args) :
    Reencodes T w := by
  intro op hop
  obtain ⟨args, hargs⟩ := hargs op hop
  exact ⟨args, hargs, h.intoArgs_fromArgs op w.args args hop hargs⟩

section Calls

variable {env : Env} {x : Outside} {cap : CapId} {args : SyscallArgs} {k k₁ k₂ k₃ : Kernel}
  {self : KPtr} {r : Except CapError Nat}

/-- **`syscall` returns what `exercise_cap` did.** -/
theorem syscall_returns (hself : Thread.current env k = .ok (some self) k₁)
    (hcall : Thread.exerciseCap env x self cap (.ofArgs args) k₁ = .ok r k₂)
    (hr : ∀ n, r = .ok n → n ≤ 2 ^ 63 - 1) (hdrop : dropHandle env self k₂ = .ok () k₃) :
    syscall env (handleWords env x) cap args k = .ok (.ok r) k₃ := by
  obtain ⟨code, hcode⟩ := answer_ok hr
  have hwords : handleWords env x (args.words cap) k = .ok code k₃ :=
    handle_answers (CapId.tryFrom_eq_some.mpr rfl) hself hcall hcode hdrop
  unfold syscall
  rw [bind_of_eq_ok hwords, syscallResult_answer env hcode]
  rfl

theorem syscall_returned {res : Except Panic (Except CapError Nat)}
    (hrun : syscall env (handleWords env x) cap args k = .ok res k₃) :
    ∃ self k₁ r k₂, Thread.current env k = .ok (some self) k₁ ∧
      Thread.exerciseCap env x self cap (.ofArgs args) k₁ = .ok r k₂ ∧ res = .ok r := by
  obtain ⟨code, k', hwords, hres⟩ := bind_eq_ok hrun
  cases hres
  have hcap : CapId.tryFrom (args.words cap).a = some cap := CapId.tryFrom_eq_some.mpr rfl
  obtain ⟨hnone, _⟩ | ⟨cap', self, k₁, r, k₂, hcap', hself, hcall, hcode⟩ := handle_answered hwords
  · rw [hcap] at hnone
    cases hnone
  · obtain rfl := Option.some.inj (hcap.symm.trans hcap')
    exact ⟨self, k₁, r, k₂, hself, hcall, syscallResult_answer env hcode⟩

end Calls

/-- **A system call is the same on both sides**, for any number of slots: `Link`, `Unlink` and
`Activate` arrive; words decode to at most one operation and back to themselves, and to one on a
table exactly if their arguments are in range; and `syscall` returns what `exercise_cap` did. -/
theorem syscalls_round_trip (env : Env) (SLOT_COUNT : Nat) (hcount : SLOT_COUNT < 2 ^ 64) :
    ((∀ (slot : SlotId SLOT_COUNT) other, Arrives (CapTableOp.link slot other)) ∧
      (∀ slot : SlotId SLOT_COUNT, Arrives (CapTableOp.unlink slot)) ∧
      Arrives ThreadOp.activate) ∧
    (∀ w : Words, w.args.Written →
      (∃ r : Except InvalidOperation (CapTableOp SLOT_COUNT), fromArgs w.args = .ok r) ∧
      (∃ r : Except InvalidOperation ThreadOp, fromArgs w.args = .ok r) ∧
      ((∃ op : CapTableOp SLOT_COUNT, fromArgs w.args = .ok (.ok op)) ↔
        (w.b = 2 ∧ w.c.toNat < 2 ^ 32 ∧ w.d.toNat < SLOT_COUNT) ∨
          (w.b = 3 ∧ w.c.toNat < SLOT_COUNT)) ∧
      (∀ (op : CapTableOp SLOT_COUNT) (op' : ThreadOp), fromArgs w.args = .ok (.ok op) →
        fromArgs w.args ≠ .ok (.ok op')) ∧
      Reencodes (CapTableOp SLOT_COUNT) w ∧ Reencodes ThreadOp w) ∧
    (∀ args,
      (∀ r, fromArgs args = .ok r → (Operation.ofArgs args).asCapTableOp = r.toOption) ∧
      (∀ r, fromArgs args = .ok r → (Operation.ofArgs args).asThreadOp = r.toOption)) ∧
    (∀ r, (∀ n, r = .ok n → n ≤ 2 ^ 63 - 1) →
      ∃ code, answer r = .ok code ∧ syscallResult env code = .ok r) ∧
    (∀ x cap args k, args.Written →
      (∀ self k₁ r k₂ k₃, Thread.current env k = .ok (some self) k₁ →
        Thread.exerciseCap env x self cap (.ofArgs args) k₁ = .ok r k₂ →
        (∀ n, r = .ok n → n ≤ 2 ^ 63 - 1) → dropHandle env self k₂ = .ok () k₃ →
        syscall env (handleWords env x) cap args k = .ok (.ok r) k₃) ∧
      (∀ res k', syscall env (handleWords env x) cap args k = .ok res k' →
        ∃ self k₁ r k₂, Thread.current env k = .ok (some self) k₁ ∧
          Thread.exerciseCap env x self cap (.ofArgs args) k₁ = .ok r k₂ ∧ res = .ok r)) := by
  have hlawful : Lawful (CapTableOp SLOT_COUNT) := CapTableOp.lawful hcount
  refine ⟨⟨fun slot other => hlawful.arrives rfl, fun slot => hlawful.arrives rfl,
    ThreadOp.lawful.arrives rfl⟩, fun w hw => ?_, ?_, ?_, ?_⟩
  · refine ⟨CapTableOp.fromArgs_returns hw, ThreadOp.fromArgs_returns _,
      CapTableOp.fromArgs_isOk_iff, fun op op' h h' => ?_, hlawful.reencodes fun op h => ?_,
      ThreadOp.lawful.reencodes fun op h => ?_⟩
    · exact (CapTableOp.fromArgs_eq_ok.mp h).not_thread (ThreadOp.fromArgs_eq_ok.mp h')
    · exact (CapTableOp.fromArgs_eq_ok.mp h).intoArgs_ok
    · exact (ThreadOp.fromArgs_eq_ok.mp h).intoArgs_ok hw
  · intro args
    exact ⟨fun r => Operation.asCapTableOp_ofArgs, fun r => Operation.asThreadOp_ofArgs⟩
  · intro r hr
    obtain ⟨code, hcode⟩ := answer_ok hr
    exact ⟨code, hcode, syscallResult_answer env hcode⟩
  · intro x cap args k _
    exact ⟨fun self k₁ r k₂ k₃ => syscall_returns, fun res k' => syscall_returned⟩

theorem syscalls_round_trip_numSlots : numSlots < 2 ^ 64 ∧
    Arrives (CapTableOp.link (5 : SlotId numSlots) 7) ∧
    ∃ op : CapTableOp numSlots, fromArgs (Words.args ⟨0, 3, 127, 0, 0, 0⟩) = .ok (.ok op) := by
  have hcount : numSlots < 2 ^ 64 := by decide
  obtain ⟨⟨hlink, _, _⟩, hwords, _⟩ := syscalls_round_trip Env.dev numSlots hcount
  have hwritten : (Words.args ⟨0, 3, 127, 0, 0, 0⟩).Written := by
    unfold SyscallArgs.Written
    decide
  exact ⟨hcount, hlink 5 7, (hwords _ hwritten).2.2.1.mpr (.inr (by decide))⟩

end Harmony
