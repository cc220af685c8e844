import Harmony.Retype.Frames

/-!
# Counted kernel pointers

Model of `KPtr` (`harmony/kernel/src/kptr.rs`): a pointer through the direct map to an object that
fills a kernel frame, with the retype table's counter as its reference count. The object is the
page's bytes.

`KPtr::drop` releases by `KernelFrame::from_raw(self.frame()).drop()`, the by-value method, so each
release takes two references (`KPtr.drop_of_two_le`), and releasing the last one panics before the
object is destroyed (`KPtr.drop_of_lt_two`). `try_into_inner(self)` does the same and then lets
`self` go out of scope, which releases again.

* `KPtr.newUnchecked_of_usable`, `KPtr.clone_of_ne`, `KPtr.frame_of_points`: making and copying a
  pointer.
* `KPtr.drop_of_two_le`, `KPtr.drop_of_lt_two`, `KPtr.tryIntoInner_of_lt_four`,
  `KPtr.tryIntoInner_of_four_le`: giving one up.
-/

namespace Harmony

open Lib

/-- `PhysAddr::from_virtual`. -/
def PhysAddr.fromVirtual (env : Env) (v : VirtAddr) : Except Panic PhysAddr :=
  match env.sub v.addr env.pmo with
  | .ok paddr => PhysAddr.new paddr
  | .error p => .error p

/-- A frame the direct map covers, at a page boundary of it. -/
structure RawFrame.Usable (env : Env) (f : RawFrame) : Prop where
  mapped : f.Mapped env
  aligned : f.Aligned
  pmo_aligned : env.pmo % pageSize = 0

/-- The bytes of an object that fills a page. -/
abbrev PageBytes := Nat → BitVec 8

/-- `KPtr<T>`. -/
structure KPtr where
  inner : VirtAddr
  deriving DecidableEq

namespace KPtr

/-- The pointer to a frame's object, as `new_unchecked` and `from_frame_unchecked` make it:
`NonNull::new(..).unwrap()` and the alignment assertion. -/
def pointer (env : Env) (frame : RawFrame) : KM VirtAddr := do
  let ptr ← orPanic (frame.base.toVirtual env)
  let ptr ← unwrap "NonNull::new" (if ptr.addr = 0 then none else some ptr)
  assert (ptr.addr % pageSize == 0) "ptr.as_ptr() as usize % PAGE_SIZE == 0"
  pure ptr

/-- `KPtr::new_unchecked`. -/
def newUnchecked (env : Env) (frame : KernelFrame) (value : PageBytes) : KM KPtr := do
  let frame := frame.intoRaw
  let ptr ← pointer env frame
  let a ← orPanic (directMap env ptr)
  modify fun m => m.store a pageSize value
  note (.construct frame)
  pure ⟨ptr⟩

/-- `KPtr::new`. -/
def new (env : Env) (frame : RawFrame) (value : PageBytes) : KM (Except RetypeError KPtr) := do
  match ← frame.tryIntoKernel with
  | .error e => pure (.error e)
  | .ok k => return .ok (← newUnchecked env k value)

/-- `KPtr::from_frame_unchecked`. -/
def fromFrameUnchecked (env : Env) (frame : KernelFrame) : KM KPtr := do
  let frame := frame.intoRaw
  let ptr ← pointer env frame
  pure ⟨ptr⟩

/-- `KPtr::frame`. -/
def frame (env : Env) (p : KPtr) : Except Panic RawFrame :=
  match PhysAddr.fromVirtual env p.inner with
  | .ok a => RawFrame.fromStartAddress a
  | .error e => .error e

/-- `Drop::drop`. -/
def drop (env : Env) (p : KPtr) : KM Unit := do
  let frame ← orPanic (p.frame env)
  let count ← (KernelFrame.fromRaw frame).drop
  if count = 1 then note (.dropInPlace frame)

/-- `KPtr::try_into_inner`; when it returns, `self` goes out of scope. -/
def tryIntoInner (env : Env) (p : KPtr) : KM (Option PageBytes) := do
  let frame ← orPanic (p.frame env)
  let count ← (KernelFrame.fromRaw frame).drop
  let inner ←
    if count = 1 then do
      let a ← orPanic (directMap env p.inner)
      let mem := (← get).mem
      note (.moveOut frame)
      pure (some fun i => mem (a + i))
    else pure none
  p.drop env
  pure inner

/-- `KPtr::into_raw`: the pointer is forgotten. -/
def intoRaw (env : Env) (p : KPtr) : KM RawFrame := orPanic (p.frame env)

/-- `Clone::clone`. -/
def clone (env : Env) (p : KPtr) : KM KPtr := do
  let frame ← orPanic (p.frame env)
  let k ← frame.asKernelUnchecked
  fromFrameUnchecked env k

/-- The pointer leads to frame `f`. -/
def Points (env : Env) (p : KPtr) (f : RawFrame) : Prop := p.inner.addr = env.pmo + f.base.addr

/-! ## What each method does -/

section Spec

variable {env : Env} {m : Machine} {f : RawFrame} {e : RetypeEntry} {p : KPtr}

theorem pointer_of_usable (hf : f.Usable env) :
    ∃ v, v.addr = env.pmo + f.base.addr ∧ pointer env f m = .ok v m := by
  obtain ⟨v, hv, hva⟩ := RawFrame.toVirtual_of_mapped hf.mapped
  refine ⟨v, hva, ?_⟩
  have hpmo := env.pmo_high
  have hne : v.addr ≠ 0 := by omega
  have hal : v.addr % pageSize = 0 := by
    have h1 := hf.aligned
    have h2 := hf.pmo_aligned
    simp only [RawFrame.Aligned, frameSize, pageSize] at h1 h2 ⊢
    omega
  unfold pointer
  rw [bind_of_eq_ok (show orPanic (f.base.toVirtual env) m = .ok v m by rw [hv]; rfl),
    bind_of_eq_ok (show unwrap "NonNull::new" (if v.addr = 0 then none else some v) m = .ok v m by
      rw [if_neg hne]; rfl),
    bind_of_eq_ok (show assert (v.addr % pageSize == 0) _ m = .ok () m by rw [hal]; rfl)]
  rfl

/-- The pointer to a frame's object, when it is one. -/
theorem wp_pointer (env : Env) (f : RawFrame) (m : Machine) :
    wp (pointer env f)
      (fun v m' => m' = m ∧ f.base.toVirtual env = .ok v ∧ v.addr % pageSize = 0)
      (fun _ m' => m' = m) m := by
  unfold pointer
  simp only [wp_bind]
  refine wp_orPanic (fun v hv => ?_) (fun _ _ => rfl)
  refine wp_unwrap (fun w hw => ?_) (fun _ => rfl)
  refine wp_assert (fun haligned => ?_) (fun _ => rfl)
  split_ifs at hw
  obtain rfl := Option.some.inj hw
  exact ⟨rfl, hv, by simpa using haligned⟩

/-- A pointer that can be dereferenced leads to its frame. -/
theorem points_of_directMap {v : VirtAddr} {a : Nat} (hv : f.base.toVirtual env = .ok v)
    (ha : directMap env v = .ok a) : a = f.base.addr ∧ KPtr.Points env ⟨v⟩ f := by
  have hptr : f.ptr env = .ok a := by
    unfold RawFrame.ptr
    rw [hv]
    exact ha
  obtain rfl := RawFrame.ptr_eq_ok hptr
  refine ⟨rfl, ?_⟩
  unfold directMap at ha
  split_ifs at ha with hle
  have := Except.ok.inj ha
  unfold Points
  simp only
  omega

theorem directMap_of_points (hp : p.Points env f) : directMap env p.inner = .ok f.base.addr := by
  unfold directMap
  rw [hp, if_pos (Nat.le_add_right _ _), Nat.add_sub_cancel_left]

/-- The object is written to the frame, and the pointer leads there. -/
theorem newUnchecked_of_usable (hf : f.Usable env) (value : PageBytes) :
    ∃ p : KPtr, p.Points env f ∧ newUnchecked env ⟨f⟩ value m =
      .ok p { m.store f.base.addr pageSize value with trace := .construct f :: m.trace } := by
  obtain ⟨v, hva, hrun⟩ := pointer_of_usable (m := m) hf
  refine ⟨⟨v⟩, hva, ?_⟩
  unfold newUnchecked
  have hmap : orPanic (directMap env v) m = .ok f.base.addr m := by
    rw [directMap_of_points (p := ⟨v⟩) hva]; rfl
  rw [bind_of_eq_ok (show pointer env (KernelFrame.intoRaw ⟨f⟩) m = .ok v m from hrun),
    bind_of_eq_ok hmap]
  rfl

/-- `KPtr::new` on any frame: it was untyped, is claimed and holds the object, or nothing has
changed. -/
theorem wp_new (env : Env) (f : RawFrame) (value : PageBytes) (m : Machine) :
    wp (new env f value)
      (fun r m' => match r with
        | .error _ => m' = m
        | .ok p => ∃ e e', m.retypeMap[f.number]? = some e ∧ e.get = (.untyped, 0) ∧
            e'.get = (.kernel, 1) ∧ p.Points env f ∧ p.inner.addr % pageSize = 0 ∧
            m' = { (m.setEntry f.number e').store f.base.addr pageSize value with
              trace := .construct f :: m.trace })
      (fun _ m' => m' = m ∨ ∃ e', m' = m.setEntry f.number e') m := by
  unfold new
  refine (wp_bind _ _).mpr ?_
  rcases tryInto_cases .kernel f m with ⟨err, hrun⟩ | ⟨e, e', he, hg, hg', hrun⟩
  · have h₁ : f.tryIntoKernel m = .ok (.error err) m := bind_of_eq_ok hrun
    rw [wp_of_eq_ok h₁]
    exact rfl
  · have h₁ : f.tryIntoKernel m = .ok (.ok ⟨f⟩) (m.setEntry f.number e') := bind_of_eq_ok hrun
    rw [wp_of_eq_ok h₁]
    unfold newUnchecked note
    simp only [wp_bind]
    refine wp_mono (wp_pointer env f _) ?_ ?_
    · rintro v mp ⟨rfl, hv, haligned⟩
      refine wp_orPanic (fun a ha => ?_) (fun _ _ => .inr ⟨e', rfl⟩)
      obtain ⟨rfl, hp⟩ := points_of_directMap hv ha
      exact ⟨e, e', he, hg, hg', hp, haligned, rfl⟩
    · rintro _ mp rfl
      exact .inr ⟨e', rfl⟩

theorem fromFrameUnchecked_of_usable (hf : f.Usable env) :
    ∃ p : KPtr, p.Points env f ∧ fromFrameUnchecked env ⟨f⟩ m = .ok p m := by
  obtain ⟨v, hva, hrun⟩ := pointer_of_usable (m := m) hf
  refine ⟨⟨v⟩, hva, ?_⟩
  unfold fromFrameUnchecked
  rw [bind_of_eq_ok (show pointer env (KernelFrame.intoRaw ⟨f⟩) m = .ok v m from hrun)]
  rfl

theorem frame_of_points (hal : f.Aligned) (hp : p.Points env f) : p.frame env = .ok f := by
  unfold KPtr.frame PhysAddr.fromVirtual
  rw [hp, Env.sub_of_le env (Nat.le_add_right _ _), Nat.add_sub_cancel_left]
  simp only [PhysAddr.new_of_lt f.base.lt]
  exact RawFrame.fromStartAddress_of_aligned hal

/-- A copy: one reference more, to the same frame. -/
theorem clone_of_ne (hf : f.Usable env) (hp : p.Points env f)
    (h : m.retypeMap[f.number]? = some e) (hne : e.get.2 ≠ 16383) :
    ∃ (q : KPtr) (e' : RetypeEntry), q.Points env f ∧ e'.get = (e.get.1, e.get.2 + 1) ∧
      p.clone env m = .ok q (m.setEntry f.number e') := by
  obtain ⟨e', hg, hrun⟩ := asKernelUnchecked_of_ne h hne
  obtain ⟨q, hq, hrun'⟩ := fromFrameUnchecked_of_usable (m := m.setEntry f.number e') hf
  refine ⟨q, e', hq, hg, ?_⟩
  unfold clone
  rw [frame_of_points hf.aligned hp, bind_of_eq_ok (show orPanic (.ok f) m = .ok f m from rfl),
    bind_of_eq_ok hrun]
  exact hrun'

/-- **Dropping a pointer takes two references.** The count it sees is not 1, so the object
stays. -/
theorem drop_of_two_le (hal : f.Aligned) (hp : p.Points env f)
    (h : m.retypeMap[f.number]? = some e) (h2 : 2 ≤ e.get.2) :
    ∃ e', e'.get = (e.get.1, e.get.2 - 2) ∧ p.drop env m = .ok () (m.setEntry f.number e') := by
  obtain ⟨e', hg, hrun⟩ := dropMethod_of_two_le h h2
  refine ⟨e', hg, ?_⟩
  unfold drop
  rw [frame_of_points hal hp, bind_of_eq_ok (show orPanic (.ok f) m = .ok f m from rfl),
    bind_of_eq_ok (show (KernelFrame.fromRaw f).drop m = _ from hrun),
    if_neg (by omega)]
  rfl

/-- **Dropping the last pointer panics**, with the object in place. -/
theorem drop_of_lt_two (hal : f.Aligned) (hp : p.Points env f)
    (h : m.retypeMap[f.number]? = some e) (h2 : e.get.2 < 2) :
    ∃ err e', p.drop env m = .error err (m.setEntry f.number e') := by
  have hpanic : ∃ err e',
      (KernelFrame.fromRaw f).drop m = .error err (m.setEntry f.number e') := by
    by_cases h0 : e.get.2 = 0
    · have hrun := dropMethod_of_zero h h0
      exact ⟨_, e, by rw [Machine.setEntry_self h]; exact hrun⟩
    · obtain ⟨e', hrun⟩ := dropMethod_of_one h (by omega)
      exact ⟨_, e', hrun⟩
  obtain ⟨err, e', hrun⟩ := hpanic
  refine ⟨err, e', ?_⟩
  unfold drop
  rw [frame_of_points hal hp, bind_of_eq_ok (show orPanic (.ok f) m = .ok f m from rfl)]
  exact bind_of_eq_error hrun

/-- **`try_into_inner` takes four references**, two itself and two when `self` goes out of scope,
and returns `None`. -/
theorem tryIntoInner_of_four_le (hal : f.Aligned) (hp : p.Points env f)
    (h : m.retypeMap[f.number]? = some e) (h4 : 4 ≤ e.get.2) :
    ∃ e', e'.get = (e.get.1, e.get.2 - 4) ∧
      p.tryIntoInner env m = .ok none (m.setEntry f.number e') := by
  obtain ⟨e₁, hg₁, hrun₁⟩ := dropMethod_of_two_le h (by omega)
  have hm₁ := Machine.getElem?_setEntry_self e₁ h
  obtain ⟨e₂, hg₂, hrun₂⟩ := drop_of_two_le hal hp hm₁ (by rw [hg₁]; simp only; omega)
  refine ⟨e₂, ?_, ?_⟩
  · rw [hg₂, hg₁]
    simp only [Prod.mk.injEq, true_and]
    omega
  · unfold tryIntoInner
    rw [frame_of_points hal hp, bind_of_eq_ok (show orPanic (.ok f) m = .ok f m from rfl),
      bind_of_eq_ok (show (KernelFrame.fromRaw f).drop m = _ from hrun₁),
      if_neg (by omega), bind_of_eq_ok (show (pure none : KM (Option PageBytes)) _ = _ from rfl)]
    refine (bind_of_eq_ok hrun₂).trans ?_
    rw [Machine.setEntry_setEntry]
    rfl

/-- **With fewer than four references it panics.** -/
theorem tryIntoInner_of_lt_four (hal : f.Aligned) (hp : p.Points env f)
    (h : m.retypeMap[f.number]? = some e) (h4 : e.get.2 < 4) :
    ∃ err m', p.tryIntoInner env m = .error err m' := by
  unfold tryIntoInner
  rw [frame_of_points hal hp, bind_of_eq_ok (show orPanic (.ok f) m = .ok f m from rfl)]
  by_cases h2 : 2 ≤ e.get.2
  · obtain ⟨e₁, hg₁, hrun₁⟩ := dropMethod_of_two_le h h2
    have hm₁ := Machine.getElem?_setEntry_self e₁ h
    obtain ⟨err, e₂, hrun₂⟩ := drop_of_lt_two hal hp hm₁ (by rw [hg₁]; simp only; omega)
    refine ⟨err, (m.setEntry f.number e₁).setEntry f.number e₂, ?_⟩
    rw [bind_of_eq_ok (show (KernelFrame.fromRaw f).drop m = _ from hrun₁),
      if_neg (by omega), bind_of_eq_ok (show (pure none : KM (Option PageBytes)) _ = _ from rfl)]
    exact bind_of_eq_error hrun₂
  · by_cases h0 : e.get.2 = 0
    · exact ⟨_, _, bind_of_eq_error (dropMethod_of_zero h h0)⟩
    · obtain ⟨e', hrun⟩ := dropMethod_of_one h (by omega)
      exact ⟨_, _, bind_of_eq_error hrun⟩

end Spec

end KPtr

end Harmony
