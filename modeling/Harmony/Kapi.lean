import Harmony.Env
import Harmony.Caps.Trie

/-!
# The system call interface

Model of `kapi/src/raw.rs` and `kapi/src/ops.rs`, which userspace and kernel share. An operation is
encoded in an op word and four argument words; with the capability in front these are the six words
of `int 0x80`. The kernel decodes them and answers with a signed word, a success code or a negative
errno, which `syscall` takes apart again.

`into_args` and `from_args` are a `todo!()` for the operations that are not written yet: they panic
there. A machine word is a `UInt64`; an answer, an `isize`, is an `Int`.

* `SyscallOp.Lawful`: what an encoder and a decoder have to agree on. `ThreadOp` is lawful, and
  `CapTableOp` for every number of slots that is a `usize`.
* `CapTableOp.fromArgs_isOk_iff`: the words that decode to an operation on a table.
* `syscallResult_toErrno`, `syscallResult_code`: the answer comes back.
-/

namespace Harmony

/-! ## Enumerations with a code -/

/-- `TryFromPrimitive`: the variant of a code. -/
def tryFromPrimitive {E : Type} (variants : List E) (code : E → Nat) (n : Nat) : Option E :=
  variants.find? fun e => code e == n

theorem tryFromPrimitive_eq_some {E : Type} {variants : List E} {code : E → Nat}
    (hall : ∀ e, e ∈ variants) (hinj : Function.Injective code) {n : Nat} {e : E} :
    tryFromPrimitive variants code n = some e ↔ code e = n := by
  unfold tryFromPrimitive
  constructor
  · intro h
    have hcode := List.find?_some h
    exact beq_iff_eq.mp hcode
  · rintro rfl
    cases hfind : variants.find? fun e' => code e' == code e with
    | none =>
      have hne := List.find?_eq_none.mp hfind e (hall e)
      simp at hne
    | some e' =>
      have hcode := List.find?_some hfind
      rw [hinj (beq_iff_eq.mp hcode)]

/-- `RawOperation`. -/
inductive RawOperation where
  | threadActivate
  | threadChangeAffinity
  | capTableLink
  | capTableUnlink
  | capTableConstruct
  | capTableDrop
  | capTableCopy
  | pageTableLink
  | pageTableUnlink
  | memoryRegionRetype
  | memoryRegionSplit
  deriving DecidableEq, Repr

namespace RawOperation

/-- The discriminant. -/
def code : RawOperation → Nat
  | threadActivate => 0
  | threadChangeAffinity => 1
  | capTableLink => 2
  | capTableUnlink => 3
  | capTableConstruct => 4
  | capTableDrop => 5
  | capTableCopy => 6
  | pageTableLink => 7
  | pageTableUnlink => 8
  | memoryRegionRetype => 9
  | memoryRegionSplit => 10

/-- The variants in order. -/
def variants : List RawOperation :=
  [threadActivate, threadChangeAffinity, capTableLink, capTableUnlink, capTableConstruct,
    capTableDrop, capTableCopy, pageTableLink, pageTableUnlink, memoryRegionRetype,
    memoryRegionSplit]

/-- `RawOperation::into`. -/
def into (op : RawOperation) : UInt64 := UInt64.ofNat op.code

/-- `RawOperation::try_from`. -/
def tryFrom (word : UInt64) : Option RawOperation := tryFromPrimitive variants code word.toNat

theorem code_injective : Function.Injective code := by
  intro op op' h
  cases op <;> cases op' <;> first | rfl | cases h

theorem tryFrom_eq_some {word : UInt64} {op : RawOperation} :
    tryFrom word = some op ↔ op.into = word := by
  unfold tryFrom
  rw [tryFromPrimitive_eq_some (by intro op; cases op <;> decide) code_injective]
  have hcode : op.into.toNat = op.code := by cases op <;> rfl
  rw [← hcode]
  exact UInt64.toNat_inj

@[simp] theorem tryFrom_into (op : RawOperation) : tryFrom op.into = some op :=
  tryFrom_eq_some.mpr rfl

theorem into_injective : Function.Injective into := by
  intro op op' h
  have htry := tryFrom_into op
  rw [h, tryFrom_into] at htry
  exact (Option.some.inj htry).symm

end RawOperation

/-- `CapError`. -/
inductive CapError where
  | resourceInUse
  | notFound
  | invalidOp
  | invalidArgument
  | pageOffsetOutOfBounds
  | frameOutsideOfRegion
  | frameNotUser
  | internal
  deriving DecidableEq, Repr

namespace CapError

/-- The discriminant. -/
def code : CapError → Nat
  | resourceInUse => 1
  | notFound => 2
  | invalidOp => 3
  | invalidArgument => 4
  | pageOffsetOutOfBounds => 5
  | frameOutsideOfRegion => 6
  | frameNotUser => 7
  | internal => 8

/-- The variants in order. -/
def variants : List CapError :=
  [resourceInUse, notFound, invalidOp, invalidArgument, pageOffsetOutOfBounds, frameOutsideOfRegion,
    frameNotUser, internal]

/-- `CapError::try_from`. -/
def tryFrom (byte : Nat) : Option CapError := tryFromPrimitive variants code byte

/-- `CapError::to_errno`. -/
def toErrno (e : CapError) : Int := -(e.code : Int)

theorem code_injective : Function.Injective code := by
  intro e e' h
  cases e <;> cases e' <;> first | rfl | cases h

theorem tryFrom_eq_some {byte : Nat} {e : CapError} : tryFrom byte = some e ↔ e.code = byte :=
  tryFromPrimitive_eq_some (by intro e; cases e <;> decide) code_injective

theorem code_range (e : CapError) : 0 < e.code ∧ e.code ≤ 8 := by
  cases e <;> decide

end CapError

/-! ## Operations -/

/-- `CapId(u32)`. -/
abbrev CapId := UInt32

/-- `CapId::try_from`. -/
def CapId.tryFrom (value : UInt64) : Option CapId :=
  if h : value.toNat < 2 ^ 32 then some (UInt32.ofNatLT value.toNat h) else none

/-- `ConstructArgs`. -/
inductive ConstructArgs where
  | capTable
  | thread (entry stackPointer : BitVec 64) (capTable pageTable : CapId)
  | pageTable (level : BitVec 8)
  deriving DecidableEq

/-- `CapTableOp<SLOT_COUNT>`. -/
inductive CapTableOp (SLOT_COUNT : Nat) where
  | link (slot : SlotId SLOT_COUNT) (otherTableCap : CapId)
  | unlink (slot : SlotId SLOT_COUNT)
  | construct (kind : ConstructArgs) (region : Nat) (slot : SlotId SLOT_COUNT)
  | drop (slot : SlotId SLOT_COUNT)
  | copy (slot : SlotId SLOT_COUNT) (otherTableCap : CapId) (otherSlot : SlotId SLOT_COUNT)
  deriving DecidableEq

/-- `ThreadOp`. -/
inductive ThreadOp where
  | activate
  | changeAffinity
  deriving DecidableEq, Repr

/-- `SyscallArgs`. -/
structure SyscallArgs where
  op : UInt64
  general : UInt64 × UInt64 × UInt64 × UInt64
  deriving DecidableEq

/-- `SyscallArgs::new`. -/
def SyscallArgs.new (op a b c d : UInt64) : SyscallArgs := ⟨op, a, b, c, d⟩

/-- The argument words in order. -/
def SyscallArgs.operands (args : SyscallArgs) : List UInt64 :=
  [args.general.1, args.general.2.1, args.general.2.2.1, args.general.2.2.2]

/-- `InvalidOperation`. -/
inductive InvalidOperation where
  | badOp
  | invalidArgument
  deriving DecidableEq, Repr

/-- `.map_err(|_| InvalidOperation::InvalidArgument)`. -/
def orInvalid {α : Type} : Option α → Except InvalidOperation α
  | some a => .ok a
  | none => .error .invalidArgument

/-- The panic of `todo!()`. -/
def Panic.todo : Panic := .message "not yet implemented"

/-- `SyscallOp`. -/
class SyscallOp (T : Type) where
  /-- `into_args`. -/
  intoArgs : T → Except Panic SyscallArgs
  /-- `from_args`. -/
  fromArgs : SyscallArgs → Except Panic (Except InvalidOperation T)
  /-- How many argument words the operation uses. -/
  arity : T → Nat

open SyscallOp

instance : SyscallOp ThreadOp where
  intoArgs
    | .activate => .ok (.new RawOperation.threadActivate.into 0 0 0 0)
    | .changeAffinity => .error .todo
  fromArgs args :=
    match RawOperation.tryFrom args.op with
    | none => .ok (.error .badOp)
    | some .threadActivate => .ok (.ok .activate)
    | some .threadChangeAffinity => .ok (.ok .changeAffinity)
    | some _ => .ok (.error .badOp)
  arity _ := 0

instance (SLOT_COUNT : Nat) : SyscallOp (CapTableOp SLOT_COUNT) where
  intoArgs
    | .link slot otherTableCap =>
      .ok (.new RawOperation.capTableLink.into otherTableCap.toUInt64 (UInt64.ofNat slot) 0 0)
    | .unlink slot => .ok (.new RawOperation.capTableUnlink.into (UInt64.ofNat slot) 0 0 0)
    | .construct _ _ _ => .error .todo
    | .drop _ => .error .todo
    | .copy _ _ _ => .error .todo
  fromArgs args :=
    match RawOperation.tryFrom args.op with
    | none => .ok (.error .badOp)
    | some .capTableLink => .ok do
      let otherTableCap ← orInvalid (CapId.tryFrom args.general.1)
      let slot ← orInvalid (SlotId.tryFrom SLOT_COUNT args.general.2.1.toNat)
      pure (.link slot otherTableCap)
    | some .capTableUnlink => .ok do
      let slot ← orInvalid (SlotId.tryFrom SLOT_COUNT args.general.1.toNat)
      pure (.unlink slot)
    | some .capTableConstruct => .error .todo
    | some .capTableDrop => .error .todo
    | some .capTableCopy => .error .todo
    | some _ => .ok (.error .badOp)
  arity
    | .link _ _ => 2
    | .unlink _ => 1
    | .construct _ _ _ => 0
    | .drop _ => 0
    | .copy _ _ _ => 0

/-! ## `syscall` -/

/-- The words of `raw_syscall`. -/
structure Words where
  a : UInt64
  b : UInt64
  c : UInt64
  d : UInt64
  e : UInt64
  f : UInt64

/-- The words that `syscall` passes. -/
def SyscallArgs.words (cap : CapId) (args : SyscallArgs) : Words :=
  ⟨cap.toUInt64, args.op, args.general.1, args.general.2.1, args.general.2.2.1, args.general.2.2.2⟩

/-- The arguments that `syscall::handle` makes of its words. -/
def Words.args (w : Words) : SyscallArgs := .new w.b w.c w.d w.e w.f

/-- `-result`, of an `isize`. -/
def Env.negIsize (env : Env) (result : Int) : Except Panic Int :=
  if result ≠ -2 ^ 63 then .ok (-result)
  else if env.overflowChecks then .error .overflow
  else .ok result

/-- What `syscall` makes of the answer. -/
def syscallResult (env : Env) (result : Int) : Except Panic (Except CapError Nat) :=
  if 0 ≤ result then .ok (.ok result.toNat)
  else do
    let errno ← env.negIsize result
    match CapError.tryFrom (errno % 2 ^ 8).toNat with
    | some e => .ok (.error e)
    | none => .error (.unwrap "TryFromPrimitiveError")

/-- `syscall`. -/
def syscall {M : Type → Type} [Monad M] (env : Env) (rawSyscall : Words → M Int) (cap : CapId)
    (args : SyscallArgs) : M (Except Panic (Except CapError Nat)) := do
  let result ← rawSyscall (args.words cap)
  pure (syscallResult env result)

theorem syscallResult_code (env : Env) (n : Nat) : syscallResult env n = .ok (.ok n) := by
  unfold syscallResult
  rw [if_pos (Int.natCast_nonneg n)]
  rfl

theorem syscallResult_toErrno (env : Env) (e : CapError) :
    syscallResult env e.toErrno = .ok (.error e) := by
  obtain ⟨hpos, hle⟩ := e.code_range
  have hbyte : CapError.tryFrom (-e.toErrno % 2 ^ 8).toNat = some e := by
    rw [CapError.tryFrom_eq_some, CapError.toErrno]
    omega
  have hneg : env.negIsize e.toErrno = .ok (-e.toErrno) := by
    unfold Env.negIsize CapError.toErrno
    rw [if_pos (by omega)]
  unfold syscallResult
  rw [if_neg (by unfold CapError.toErrno; omega), hneg]
  show (match CapError.tryFrom (-e.toErrno % 2 ^ 8).toNat with
    | some e => Except.ok (Except.error e)
    | none => Except.error (Panic.unwrap "TryFromPrimitiveError")) = _
  rw [hbyte]

/-! ## Words there and back -/

theorem CapId.tryFrom_eq_some {value : UInt64} {cap : CapId} :
    CapId.tryFrom value = some cap ↔ cap.toUInt64 = value := by
  unfold CapId.tryFrom
  constructor
  · intro h
    split at h
    · obtain rfl := Option.some.inj h
      exact UInt64.toNat_inj.mp (by simp)
    · cases h
  · rintro rfl
    have hlt : cap.toUInt64.toNat < 2 ^ 32 := by
      rw [UInt32.toNat_toUInt64]
      exact cap.toNat_lt
    rw [dif_pos hlt]
    exact congrArg some (UInt32.toNat_inj.mp (by simp))

theorem SlotId.tryFrom_eq_some {COUNT value : Nat} {slot : SlotId COUNT} :
    SlotId.tryFrom COUNT value = some slot ↔ slot.val = value := by
  unfold SlotId.tryFrom
  constructor
  · intro h
    split at h
    · obtain rfl := Option.some.inj h
      rfl
    · cases h
  · rintro rfl
    rw [dif_pos slot.isLt]

/-- What an encoder and a decoder agree on: an operation comes back from its words, and words come
back from their operation, as far as it uses them. -/
structure SyscallOp.Lawful (T : Type) [SyscallOp T] : Prop where
  fromArgs_intoArgs : ∀ (op : T) args, intoArgs op = .ok args → fromArgs args = .ok (.ok op)
  intoArgs_fromArgs : ∀ (op : T) args args', fromArgs args = .ok (.ok op) →
    intoArgs op = .ok args' →
    args'.op = args.op ∧ args'.operands.take (arity op) = args.operands.take (arity op)

/-- The words that stand for an operation on a thread. -/
inductive ThreadOp.Stands (args : SyscallArgs) : ThreadOp → Prop
  | activate (h : RawOperation.threadActivate.into = args.op) : Stands args .activate
  | changeAffinity (h : RawOperation.threadChangeAffinity.into = args.op) :
      Stands args .changeAffinity

theorem ThreadOp.fromArgs_eq_ok {args : SyscallArgs} {op : ThreadOp} :
    fromArgs args = .ok (.ok op) ↔ op.Stands args := by
  simp only [fromArgs]
  constructor
  · intro h
    split at h
    · cases h
    · rename_i hop
      cases h
      exact .activate (RawOperation.tryFrom_eq_some.mp hop)
    · rename_i hop
      cases h
      exact .changeAffinity (RawOperation.tryFrom_eq_some.mp hop)
    · cases h
  · intro h
    cases h with
    | activate h => rw [← h, RawOperation.tryFrom_into]
    | changeAffinity h => rw [← h, RawOperation.tryFrom_into]

/-- The words that stand for an operation on a table. -/
inductive CapTableOp.Stands {SLOT_COUNT : Nat} (args : SyscallArgs) : CapTableOp SLOT_COUNT → Prop
  | link {slot : SlotId SLOT_COUNT} {otherTableCap : CapId}
      (h : RawOperation.capTableLink.into = args.op)
      (hcap : otherTableCap.toUInt64 = args.general.1)
      (hslot : slot.val = args.general.2.1.toNat) : Stands args (.link slot otherTableCap)
  | unlink {slot : SlotId SLOT_COUNT} (h : RawOperation.capTableUnlink.into = args.op)
      (hslot : slot.val = args.general.1.toNat) : Stands args (.unlink slot)

theorem CapTableOp.fromArgs_eq_ok {SLOT_COUNT : Nat} {args : SyscallArgs}
    {op : CapTableOp SLOT_COUNT} : fromArgs args = .ok (.ok op) ↔ op.Stands args := by
  simp only [fromArgs]
  constructor
  · intro h
    split at h
    · cases h
    · rename_i hop
      cases hcap : CapId.tryFrom args.general.1 with
      | none =>
        rw [hcap] at h
        cases h
      | some cap =>
        cases hslot : SlotId.tryFrom SLOT_COUNT args.general.2.1.toNat with
        | none =>
          rw [hcap, hslot] at h
          cases h
        | some slot =>
          rw [hcap, hslot] at h
          cases h
          exact .link (RawOperation.tryFrom_eq_some.mp hop) (CapId.tryFrom_eq_some.mp hcap)
            (SlotId.tryFrom_eq_some.mp hslot)
    · rename_i hop
      cases hslot : SlotId.tryFrom SLOT_COUNT args.general.1.toNat with
      | none =>
        rw [hslot] at h
        cases h
      | some slot =>
        rw [hslot] at h
        cases h
        exact .unlink (RawOperation.tryFrom_eq_some.mp hop) (SlotId.tryFrom_eq_some.mp hslot)
    · cases h
    · cases h
    · cases h
    · cases h
  · intro h
    cases h with
    | link h hcap hslot =>
      rw [← h, RawOperation.tryFrom_into]
      simp only [CapId.tryFrom_eq_some.mpr hcap, SlotId.tryFrom_eq_some.mpr hslot]
      rfl
    | unlink h hslot =>
      rw [← h, RawOperation.tryFrom_into]
      simp only [SlotId.tryFrom_eq_some.mpr hslot]
      rfl

theorem ThreadOp.lawful : Lawful ThreadOp where
  fromArgs_intoArgs op args h := by
    cases op with
    | activate =>
      cases h
      exact ThreadOp.fromArgs_eq_ok.mpr (.activate rfl)
    | changeAffinity => cases h
  intoArgs_fromArgs op args args' h h' := by
    cases ThreadOp.fromArgs_eq_ok.mp h with
    | activate hop =>
      cases h'
      exact ⟨hop, rfl⟩
    | changeAffinity hop => cases h'

theorem CapTableOp.lawful {SLOT_COUNT : Nat} (hcount : SLOT_COUNT < 2 ^ 64) :
    Lawful (CapTableOp SLOT_COUNT) where
  fromArgs_intoArgs op args h := by
    have hword : ∀ slot : SlotId SLOT_COUNT, slot.val = (UInt64.ofNat slot).toNat := by
      intro slot
      rw [UInt64.toNat_ofNat_of_lt' (slot.isLt.trans hcount)]
    cases op with
    | link slot otherTableCap =>
      cases h
      exact CapTableOp.fromArgs_eq_ok.mpr (.link rfl rfl (hword slot))
    | unlink slot =>
      cases h
      exact CapTableOp.fromArgs_eq_ok.mpr (.unlink rfl (hword slot))
    | construct kind region slot => cases h
    | drop slot => cases h
    | copy slot otherTableCap otherSlot => cases h
  intoArgs_fromArgs op args args' h h' := by
    cases CapTableOp.fromArgs_eq_ok.mp h with
    | link hop hcap hslot =>
      cases h'
      refine ⟨hop, ?_⟩
      simp [SyscallArgs.new, SyscallArgs.operands, arity, hcap, hslot]
    | unlink hop hslot =>
      cases h'
      refine ⟨hop, ?_⟩
      simp [SyscallArgs.new, SyscallArgs.operands, arity, hslot]

/-! ## Which words decode -/

theorem ThreadOp.fromArgs_returns (args : SyscallArgs) :
    ∃ r : Except InvalidOperation ThreadOp, fromArgs args = .ok r := by
  simp only [fromArgs]
  split
  · exact ⟨_, rfl⟩
  · exact ⟨_, rfl⟩
  · exact ⟨_, rfl⟩
  · exact ⟨_, rfl⟩

/-- The op word is not that of an operation left as `todo!()`. -/
def SyscallArgs.Written (args : SyscallArgs) : Prop :=
  args.op ≠ 1 ∧ args.op ≠ 4 ∧ args.op ≠ 5 ∧ args.op ≠ 6

section Tables

variable {SLOT_COUNT : Nat} {args : SyscallArgs}

theorem CapTableOp.fromArgs_returns (h : args.Written) :
    ∃ r : Except InvalidOperation (CapTableOp SLOT_COUNT), fromArgs args = .ok r := by
  obtain ⟨_, h4, h5, h6⟩ := h
  simp only [fromArgs]
  split
  · exact ⟨_, rfl⟩
  · exact ⟨_, rfl⟩
  · exact ⟨_, rfl⟩
  · rename_i hop
    exact absurd (RawOperation.tryFrom_eq_some.mp hop).symm h4
  · rename_i hop
    exact absurd (RawOperation.tryFrom_eq_some.mp hop).symm h5
  · rename_i hop
    exact absurd (RawOperation.tryFrom_eq_some.mp hop).symm h6
  · exact ⟨_, rfl⟩

theorem CapTableOp.fromArgs_isOk_iff :
    (∃ op : CapTableOp SLOT_COUNT, fromArgs args = .ok (.ok op)) ↔
      (args.op = 2 ∧ args.general.1.toNat < 2 ^ 32 ∧ args.general.2.1.toNat < SLOT_COUNT) ∨
      (args.op = 3 ∧ args.general.1.toNat < SLOT_COUNT) := by
  simp only [CapTableOp.fromArgs_eq_ok]
  constructor
  · rintro ⟨op, h⟩
    cases h with
    | @link slot cap h hcap hslot =>
      refine .inl ⟨h.symm, ?_, hslot ▸ slot.isLt⟩
      rw [← hcap, UInt32.toNat_toUInt64]
      exact cap.toNat_lt
    | @unlink slot h hslot => exact .inr ⟨h.symm, hslot ▸ slot.isLt⟩
  · rintro (⟨hop, hcap, hslot⟩ | ⟨hop, hslot⟩)
    · have hword : (UInt32.ofNatLT args.general.1.toNat hcap).toUInt64 = args.general.1 :=
        UInt64.toNat_inj.mp (by simp)
      exact ⟨.link ⟨_, hslot⟩ _, .link hop.symm hword rfl⟩
    · exact ⟨.unlink ⟨_, hslot⟩, .unlink hop.symm rfl⟩

/-- No words stand for operations of both kinds. -/
theorem CapTableOp.Stands.not_thread {op : CapTableOp SLOT_COUNT} {op' : ThreadOp}
    (h : op.Stands args) (h' : op'.Stands args) : False := by
  cases h with
  | link h _ _ =>
    cases h' with
    | activate h' => cases RawOperation.into_injective (h.trans h'.symm)
    | changeAffinity h' => cases RawOperation.into_injective (h.trans h'.symm)
  | unlink h _ =>
    cases h' with
    | activate h' => cases RawOperation.into_injective (h.trans h'.symm)
    | changeAffinity h' => cases RawOperation.into_injective (h.trans h'.symm)

/-- What decodes is encoded. -/
theorem CapTableOp.Stands.intoArgs_ok {op : CapTableOp SLOT_COUNT} (h : op.Stands args) :
    ∃ args', intoArgs op = .ok args' := by
  cases h with
  | link h _ _ => exact ⟨_, rfl⟩
  | unlink h _ => exact ⟨_, rfl⟩

theorem ThreadOp.Stands.intoArgs_ok {op : ThreadOp} (h : op.Stands args) (hw : args.Written) :
    ∃ args', intoArgs op = .ok args' := by
  cases h with
  | activate h => exact ⟨_, rfl⟩
  | changeAffinity h => exact absurd h.symm hw.1

end Tables

end Harmony
