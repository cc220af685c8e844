import Harmony.Env
import Harmony.Lib.Run

/-!
# The retype entry: a state and a reference count in one 16-bit word

Model of `RetypeEntry` and `State` (`harmony/kernel/src/retyping.rs`). The word holds the state in
its two top bits and the counter in the 14 below. Each operation is one atomic step on the word:
`fetchUpdate` and `compareExchange` are the two primitives of `AtomicU16` the source uses.

* `valueInto_valueFor`: a packed word decodes to its state and to the counter **modulo
  `MAX_REF_COUNT`**: `value_for` writes `counter % MAX_REF_COUNT`, so the one counter it does not
  keep is `MAX_REF_COUNT` itself.
* `increment_of_ne`, `decrement_of_ne`, `getAsAndIncrement_of_room`, `retype_of_eq` and their
  failing counterparts: what each operation does to the decoded pair.
-/

namespace Harmony

/-- `State`, `#[repr(u8)]`. -/
inductive State where
  | unavailable
  | untyped
  | user
  | kernel
  deriving DecidableEq, Repr

/-- `state as u8`. -/
def State.toNat : State → Nat
  | unavailable => 0
  | untyped => 1
  | user => 2
  | kernel => 3

/-- `State::try_from`. -/
def State.tryFrom : Nat → Option State
  | 0 => some unavailable
  | 1 => some untyped
  | 2 => some user
  | 3 => some kernel
  | _ => none

theorem State.tryFrom_toNat (s : State) : State.tryFrom s.toNat = some s := by
  cases s <;> rfl

theorem State.toNat_lt (s : State) : s.toNat < 4 := by
  cases s <;> decide

/-- `MaxRefs`. -/
inductive MaxRefs where
  | mk
  deriving DecidableEq, Repr

/-- `NoRefs`. -/
inductive NoRefs where
  | mk
  deriving DecidableEq, Repr

/-- `RetypeEntry(AtomicU16)`. -/
structure RetypeEntry where
  word : BitVec 16
  deriving DecidableEq, Repr

namespace RetypeEntry

/-- `STATE_BITS`. -/
def stateBits : Nat := 2

/-- `COUNTER_BITS`. -/
def counterBits : Nat := 16 - stateBits

/-- `MAX_REF_COUNT`. -/
def maxRefCount : Nat := (1 <<< counterBits) - 1

/-- `value_for`. Its `assert!(counter <= MAX_REF_COUNT)` is the argument `_h`. -/
def valueFor (state : State) (counter : Nat) (_h : counter ≤ maxRefCount) : BitVec 16 :=
  (BitVec.ofNat 16 state.toNat <<< counterBits) + BitVec.ofNat 16 (counter % maxRefCount)

theorem tryFrom_isSome (w : BitVec 16) : (State.tryFrom (w >>> counterBits).toNat).isSome := by
  have h : (w >>> counterBits).toNat < 4 := by
    rw [BitVec.toNat_ushiftRight, Nat.shiftRight_eq_div_pow]
    have := w.isLt
    simp only [counterBits, stateBits]
    omega
  match hn : (w >>> counterBits).toNat, h with
  | 0, _ | 1, _ | 2, _ | 3, _ => rfl

/-- `value_into`. Its `panic!("Invalid retype state")` cannot be reached (`tryFrom_isSome`). -/
def valueInto (value : BitVec 16) : State × Nat :=
  let counter := value &&& BitVec.ofNat 16 ((1 <<< counterBits) - 1)
  ((State.tryFrom (value >>> counterBits).toNat).get (tryFrom_isSome value), counter.toNat)

/-- `AtomicU16::fetch_update`: the old value, and the new one stored if `f` gives one. -/
def fetchUpdate (e : RetypeEntry) (f : BitVec 16 → Option (BitVec 16)) :
    Except (BitVec 16) (BitVec 16) × RetypeEntry :=
  match f e.word with
  | some v => (.ok e.word, ⟨v⟩)
  | none => (.error e.word, e)

/-- `AtomicU16::compare_exchange`. -/
def compareExchange (e : RetypeEntry) (current new : BitVec 16) :
    Except (BitVec 16) (BitVec 16) × RetypeEntry :=
  if e.word = current then (.ok e.word, ⟨new⟩) else (.error e.word, e)

/-- `RetypeEntry::unavailable`. -/
def unavailable : RetypeEntry := ⟨valueFor .unavailable 0 (by decide)⟩

/-- `RetypeEntry::untyped`. -/
def untyped : RetypeEntry := ⟨valueFor .untyped 0 (by decide)⟩

theorem one_le_maxRefCount : 1 ≤ maxRefCount := by decide

/-- `RetypeEntry::kernel`. -/
def kernel (refCount : Nat) (h : refCount ≤ maxRefCount) : RetypeEntry :=
  ⟨valueFor .kernel refCount h⟩

/-- `RetypeEntry::increment`, returning the counter before. -/
def increment (e : RetypeEntry) : Except MaxRefs Nat × RetypeEntry :=
  let r := e.fetchUpdate fun value =>
    let (_, counter) := valueInto value
    if counter = maxRefCount then none else some (value + 1)
  ((r.1.map fun entry => (valueInto entry).2).mapError fun _ => .mk, r.2)

/-- `RetypeEntry::decrement`, returning the counter before. -/
def decrement (e : RetypeEntry) : Except NoRefs Nat × RetypeEntry :=
  let r := e.fetchUpdate fun value =>
    let (_, counter) := valueInto value
    if counter = 0 then none else some (value - 1)
  ((r.1.map fun entry => (valueInto entry).2).mapError fun _ => .mk, r.2)

/-- `RetypeEntry::get`. -/
def get (e : RetypeEntry) : State × Nat := valueInto e.word

/-- `RetypeEntry::get_as_and_increment`. -/
def getAsAndIncrement (e : RetypeEntry) (wants : State) :
    Except (State × Nat) Unit × RetypeEntry :=
  let r := e.fetchUpdate fun value =>
    let state := (valueInto value).1
    let count := (valueInto value).2
    if h : wants = state ∧ count < maxRefCount then some (valueFor state (count + 1) h.2) else none
  ((r.1.map fun _ => ()).mapError valueInto, r.2)

/-- `RetypeEntry::retype`. The two `value_for` calls panic on a counter above the limit. -/
def retype (e : RetypeEntry) (fromState toState : State) (fromCounter toCounter : Nat) :
    Except Panic (Except (State × Nat) Unit × RetypeEntry) :=
  if hf : fromCounter ≤ maxRefCount then
    if ht : toCounter ≤ maxRefCount then
      let r := e.compareExchange (valueFor fromState fromCounter hf) (valueFor toState toCounter ht)
      .ok ((r.1.map fun _ => ()).mapError valueInto, r.2)
    else .error (.assertion "counter <= Self::MAX_REF_COUNT")
  else .error (.assertion "counter <= Self::MAX_REF_COUNT")

/-! ## The packed word, decoded -/

theorem maxRefCount_eq : maxRefCount = 16383 := by decide

theorem valueInto_snd (w : BitVec 16) : (valueInto w).2 = w.toNat % 16384 := by
  show (w &&& BitVec.ofNat 16 ((1 <<< counterBits) - 1)).toNat = w.toNat % 2 ^ 14
  rw [BitVec.toNat_and, ← Nat.and_two_pow_sub_one_eq_mod]
  rfl

theorem valueInto_fst (w : BitVec 16) : (valueInto w).1.toNat = w.toNat / 16384 := by
  have hs : (w >>> counterBits).toNat = w.toNat / 16384 := by
    rw [BitVec.toNat_ushiftRight, Nat.shiftRight_eq_div_pow]
    rfl
  have hget : State.tryFrom (w.toNat / 16384) = some (valueInto w).1 := by
    rw [← hs]
    exact (Option.some_get _).symm
  have hlt : w.toNat / 16384 < 4 := by
    have := w.isLt
    omega
  generalize w.toNat / 16384 = n at hget hlt
  match n, hlt, hget with
  | 0, _, h | 1, _, h | 2, _, h | 3, _, h => rw [← Option.some.inj h]; rfl

theorem toNat_inj {s t : State} (h : s.toNat = t.toNat) : s = t := by
  cases s <;> cases t <;> first | rfl | exact absurd h (by decide)

theorem valueFor_toNat (s : State) (c : Nat) (h : c ≤ maxRefCount) :
    (valueFor s c h).toNat = s.toNat * 16384 + c % 16383 := by
  have hs := s.toNat_lt
  have hc : c % 16383 < 16383 := Nat.mod_lt _ (by decide)
  unfold valueFor
  rw [BitVec.toNat_add, BitVec.toNat_shiftLeft, BitVec.toNat_ofNat, BitVec.toNat_ofNat,
    maxRefCount_eq, Nat.shiftLeft_eq]
  simp only [counterBits, stateBits]
  omega

/-- The decoded pair determines the word. -/
theorem word_eq_of_valueInto {v w : BitVec 16} (h : valueInto v = valueInto w) : v = w := by
  have h1 := congrArg (fun p => p.1.toNat) h
  have h2 := congrArg Prod.snd h
  simp only [valueInto_fst, valueInto_snd] at h1 h2
  apply BitVec.eq_of_toNat_eq
  omega

/-- A word whose quotient and remainder by `2 ^ 14` are known decodes to them. -/
theorem valueInto_eq {w : BitVec 16} {s : State} {c : Nat} (hc : c < 16384)
    (h : w.toNat = s.toNat * 16384 + c) : valueInto w = (s, c) := by
  have h1 : (valueInto w).1 = s := toNat_inj (by rw [valueInto_fst]; omega)
  have h2 : (valueInto w).2 = c := by rw [valueInto_snd]; omega
  exact Prod.ext h1 h2

/-- **`value_for` keeps the state and the counter modulo `MAX_REF_COUNT`.** -/
theorem valueInto_valueFor (s : State) (c : Nat) (h : c ≤ maxRefCount) :
    valueInto (valueFor s c h) = (s, c % 16383) := by
  have hc : c % 16383 < 16383 := Nat.mod_lt _ (by decide)
  exact valueInto_eq (by omega) (valueFor_toNat s c h)

theorem eq_valueFor_iff {w : BitVec 16} {s : State} {c : Nat} (h : c ≤ maxRefCount) :
    w = valueFor s c h ↔ valueInto w = (s, c % 16383) := by
  constructor
  · rintro rfl
    exact valueInto_valueFor s c h
  · intro hw
    exact word_eq_of_valueInto (hw.trans (valueInto_valueFor s c h).symm)

theorem get_snd_le (e : RetypeEntry) : e.get.2 ≤ 16383 := by
  unfold get
  rw [valueInto_snd]
  have : e.word.toNat % 16384 < 16384 := Nat.mod_lt _ (by decide)
  omega

theorem eq_of_get {e e' : RetypeEntry} (h : e.get = e'.get) : e = e' := by
  cases e
  cases e'
  exact congrArg mk (word_eq_of_valueInto h)

@[simp] theorem get_unavailable : unavailable.get = (.unavailable, 0) := by decide

@[simp] theorem get_untyped : untyped.get = (.untyped, 0) := by decide

theorem get_kernel (n : Nat) (h : n ≤ maxRefCount) : (kernel n h).get = (.kernel, n % 16383) :=
  valueInto_valueFor .kernel n h

/-! ## What each operation does to the pair -/

/-- `value + 1` below the limit carries nothing into the state bits. -/
theorem valueInto_add_one {w : BitVec 16} (h : (valueInto w).2 ≠ 16383) :
    valueInto (w + 1) = ((valueInto w).1, (valueInto w).2 + 1) := by
  have h1 := valueInto_fst w
  rw [valueInto_snd] at h ⊢
  have := w.isLt
  have hw : (w + 1).toNat = w.toNat + 1 := by
    rw [BitVec.toNat_add]
    exact Nat.mod_eq_of_lt (by simp; omega)
  refine valueInto_eq (by omega) ?_
  rw [hw, h1]
  omega

/-- `value - 1` above zero borrows nothing from the state bits. -/
theorem valueInto_sub_one {w : BitVec 16} (h : (valueInto w).2 ≠ 0) :
    valueInto (w - 1) = ((valueInto w).1, (valueInto w).2 - 1) := by
  have h1 := valueInto_fst w
  rw [valueInto_snd] at h ⊢
  have := w.isLt
  have hw : (w - 1).toNat = w.toNat - 1 := by
    have h1 : (1 : BitVec 16).toNat = 1 := rfl
    rw [BitVec.toNat_sub, h1]
    omega
  refine valueInto_eq (by omega) ?_
  rw [hw, h1]
  omega

theorem increment_of_max {e : RetypeEntry} (h : e.get.2 = 16383) :
    e.increment = (.error .mk, e) := by
  have h' : (valueInto e.word).2 = maxRefCount := h
  simp only [increment, fetchUpdate, h', if_true]
  rfl

theorem increment_of_ne {e : RetypeEntry} (h : e.get.2 ≠ 16383) :
    e.increment.1 = .ok e.get.2 ∧ e.increment.2.get = (e.get.1, e.get.2 + 1) := by
  have h' : (valueInto e.word).2 ≠ maxRefCount := h
  simp only [increment, fetchUpdate, if_neg h']
  exact ⟨rfl, valueInto_add_one h⟩

theorem decrement_of_zero {e : RetypeEntry} (h : e.get.2 = 0) :
    e.decrement = (.error .mk, e) := by
  have h' : (valueInto e.word).2 = 0 := h
  simp only [decrement, fetchUpdate, h', if_true]
  rfl

theorem decrement_of_ne {e : RetypeEntry} (h : e.get.2 ≠ 0) :
    e.decrement.1 = .ok e.get.2 ∧ e.decrement.2.get = (e.get.1, e.get.2 - 1) := by
  have h' : (valueInto e.word).2 ≠ 0 := h
  simp only [decrement, fetchUpdate, if_neg h']
  exact ⟨rfl, valueInto_sub_one h⟩

/-- With the right state and room, the new counter is written **modulo `MAX_REF_COUNT`**. -/
theorem getAsAndIncrement_of_room {e : RetypeEntry} {wants : State} (hs : e.get.1 = wants)
    (hc : e.get.2 ≠ 16383) : (e.getAsAndIncrement wants).1 = .ok () ∧
      (e.getAsAndIncrement wants).2.get = (wants, (e.get.2 + 1) % 16383) := by
  have hlt : (valueInto e.word).2 < maxRefCount := by
    have := e.get_snd_le
    show e.get.2 < maxRefCount
    rw [maxRefCount_eq]
    omega
  have hcond : wants = (valueInto e.word).1 ∧ (valueInto e.word).2 < maxRefCount := ⟨hs.symm, hlt⟩
  simp only [getAsAndIncrement, fetchUpdate, dif_pos hcond]
  refine ⟨rfl, ?_⟩
  show valueInto _ = _
  rw [valueInto_valueFor]
  exact congrArg (·, (e.get.2 + 1) % 16383) hs

theorem getAsAndIncrement_of_not {e : RetypeEntry} {wants : State}
    (h : e.get.1 ≠ wants ∨ e.get.2 = 16383) :
    e.getAsAndIncrement wants = (.error e.get, e) := by
  have hcond : ¬ (wants = (valueInto e.word).1 ∧ (valueInto e.word).2 < maxRefCount) := by
    rintro ⟨h1, h2⟩
    rw [maxRefCount_eq] at h2
    rcases h with h | h
    · exact h h1.symm
    · exact absurd (show (valueInto e.word).2 = 16383 from h) (by omega)
  simp only [getAsAndIncrement, fetchUpdate, dif_neg hcond]
  rfl

theorem retype_of_eq {e : RetypeEntry} {fromState : State} (toState : State) (fc tc : Nat)
    (hf : fc ≤ maxRefCount) (ht : tc ≤ maxRefCount) (h : e.get = (fromState, fc % 16383)) :
    ∃ e', e.retype fromState toState fc tc = .ok (.ok (), e') ∧
      e'.get = (toState, tc % 16383) := by
  have hw : e.word = valueFor fromState fc hf := (eq_valueFor_iff hf).mpr h
  refine ⟨⟨valueFor toState tc ht⟩, ?_, valueInto_valueFor toState tc ht⟩
  simp only [retype, dif_pos hf, dif_pos ht, compareExchange, if_pos hw]
  rfl

theorem retype_of_ne {e : RetypeEntry} {fromState : State} (toState : State) (fc tc : Nat)
    (hf : fc ≤ maxRefCount) (ht : tc ≤ maxRefCount) (h : e.get ≠ (fromState, fc % 16383)) :
    e.retype fromState toState fc tc = .ok (.error e.get, e) := by
  have hw : e.word ≠ valueFor fromState fc hf := fun hw => h ((eq_valueFor_iff hf).mp hw)
  simp only [retype, dif_pos hf, dif_pos ht, compareExchange, if_neg hw]
  rfl

theorem retype_of_above {e : RetypeEntry} {fromState toState : State} {fc tc : Nat}
    (h : ¬ (fc ≤ maxRefCount ∧ tc ≤ maxRefCount)) :
    e.retype fromState toState fc tc = .error (.assertion "counter <= Self::MAX_REF_COUNT") := by
  unfold retype
  by_cases hf : fc ≤ maxRefCount
  · rw [dif_pos hf, dif_neg fun ht => h ⟨hf, ht⟩]
  · rw [dif_neg hf]

end RetypeEntry

end Harmony
