import Harmony.Retype.Table

/-!
# Why a frame cannot be released

`RawFrame::try_into_untyped` (`harmony/kernel/src/retyping.rs`) asks twice, first for a `User` frame
without references and then for a `Kernel` frame without references. The answer of the first
attempt is thrown away, so a refusal is always the second one's: a `User` frame that is still
referenced is reported as a frame in the wrong state, not as a frame with references.

* `ReportsReason`: the answer names the true reason.
* `release_reports_reason_iff`: it does, for every frame but a referenced `User` one; with debug
  assertions an `Unavailable` frame that has references panics instead.
-/

namespace Harmony

/-- The call came back with `r` in `m'`, which is the truth about the frame's entry in `m`. -/
structure ReportsReason (m : Machine) (f : RawFrame) (r : Except RetypeError RawFrame)
    (m' : Machine) : Prop where
  ok_iff : r = .ok f ↔
    m.typing f.number = some (.user, 0) ∨ m.typing f.number = some (.kernel, 0)
  released : r = .ok f → m'.typing f.number = some (.untyped, 0) ∧
    ∀ n, n ≠ f.number → m'.retypeMap[n]? = m.retypeMap[n]?
  refused : r ≠ .ok f → m' = m
  outOfBounds_iff : r = .error .outOfBounds ↔ m.typing f.number = none
  refsExist_iff : ∀ n, r = .error (.refsExist n) ↔ 0 < n ∧
    (m.typing f.number = some (.user, n) ∨ m.typing f.number = some (.kernel, n))
  invalidFromState_iff : ∀ s, r = .error (.invalidFromState s) ↔
    (s = .untyped ∨ s = .unavailable) ∧ ∃ c, m.typing f.number = some (s, c)

/-- `try_into_untyped` comes back, with the true reason. -/
def ReleaseReports (env : Env) (m : Machine) (f : RawFrame) : Prop :=
  ∃ r m', f.tryIntoUntyped env m = .ok r m' ∧ ReportsReason m f r m'

section Reasons

variable {env : Env} {m : Machine} {f : RawFrame} {e : RetypeEntry}

theorem Machine.typing_of_getElem? {n : Nat} (h : m.retypeMap[n]? = some e) :
    m.typing n = some e.get := by
  simp [Machine.typing, h]

/-- A frame past the table. -/
theorem reports_outOfBounds (h : m.retypeMap[f.number]? = none) : ReleaseReports env m f := by
  have hty : m.typing f.number = none := by simp [Machine.typing, h]
  refine ⟨_, _, tryIntoUntyped_of_none env h, ?_⟩
  constructor <;> simp [hty]

/-- A frame that can be released. -/
theorem reports_released (h : m.retypeMap[f.number]? = some e)
    (hz : e.get = (.user, 0) ∨ e.get = (.kernel, 0)) : ReleaseReports env m f := by
  have hty := Machine.typing_of_getElem? h
  obtain ⟨e', hg, hrun⟩ := tryIntoUntyped_of_zero env h hz
  have hself := Machine.typing_of_getElem? (Machine.getElem?_setEntry_self e' h)
  refine ⟨_, _, hrun, ?_⟩
  constructor
  · simpa [hty] using hz
  · intro _
    refine ⟨by rw [hself, hg], fun n hn => Machine.getElem?_setEntry_ne hn⟩
  · intro hno
    exact absurd rfl hno
  · simp [hty]
  · intro n
    rcases hz with hz | hz <;> simp [hty, hz] <;> omega
  · intro s
    rcases hz with hz | hz <;> simp [hty, hz] <;> grind

/-- A refusal, against the entry: its reason is the true one unless the frame is a `User` frame. -/
theorem reports_refused (h : m.retypeMap[f.number]? = some e) (hk : e.get ≠ (.kernel, 0))
    (hus : e.get.1 ≠ .user) : ReportsReason m f (.error (refusal .kernel e.get)) m := by
  have hty := Machine.typing_of_getElem? h
  generalize e.get = p at hty hk hus
  obtain ⟨s, c⟩ := p
  unfold refusal
  cases s with
  | user => exact absurd rfl hus
  | kernel =>
    have hc : c ≠ 0 := fun hc => hk (hc ▸ rfl)
    constructor
    · simp [hty, hc]
    · simp
    · exact fun _ => rfl
    · simp [hty]
    · intro n
      simp only [if_true, hty, Except.error.injEq, RetypeError.refsExist.injEq, Option.some.injEq,
        Prod.mk.injEq, reduceCtorEq, false_and, false_or, true_and]
      omega
    · intro s
      simp only [if_true, hty, Except.error.injEq, reduceCtorEq, Option.some.injEq, Prod.mk.injEq,
        false_iff, not_and, not_exists]
      rintro (rfl | rfl) c' <;> simp
  | untyped | unavailable =>
    constructor
    · simp [hty]
    · simp
    · exact fun _ => rfl
    · simp [hty]
    · simp [hty]
    · intro s
      simp only [reduceCtorEq, if_false, hty, Except.error.injEq,
        RetypeError.invalidFromState.injEq,
        Option.some.injEq, Prod.mk.injEq, exists_and_left, exists_eq', and_true]
      constructor
      · rintro rfl
        simp
      · exact fun hs => hs.2

end Reasons

/-- **A refused release reports the true reason exactly if the frame is not a referenced `User`
frame**, and, with debug assertions, not an `Unavailable` frame with references, where it panics.
A referenced `User` frame is refused as a frame in the state `User`. -/
theorem release_reports_reason_iff (env : Env) (m : Machine) (f : RawFrame) :
    (ReleaseReports env m f ↔
      (∀ n, m.typing f.number = some (.user, n) → n = 0) ∧
      (env.debugAssertions = true → ∀ n, m.typing f.number = some (.unavailable, n) → n = 0)) ∧
    ∀ n, 0 < n → m.typing f.number = some (.user, n) →
      f.tryIntoUntyped env m = .ok (.error (.invalidFromState .user)) m := by
  cases h : m.retypeMap[f.number]? with
  | none =>
    have hty : m.typing f.number = none := by simp [Machine.typing, h]
    exact ⟨iff_of_true (reports_outOfBounds h) (by simp [hty]), by simp [hty]⟩
  | some e =>
    have hty := Machine.typing_of_getElem? h
    have huser : ∀ n, 0 < n → m.typing f.number = some (.user, n) →
        f.tryIntoUntyped env m = .ok (.error (.invalidFromState .user)) m := by
      intro n hn htn
      have hg : e.get = (.user, n) := Option.some.inj (hty.symm.trans htn)
      have hrun := tryIntoUntyped_of_ne env h (by simp [hg]; omega) (by simp [hg]) (by simp [hg])
      rwa [hg] at hrun
    refine ⟨⟨?_, ?_⟩, huser⟩
    · rintro ⟨r, m', hrun, hr⟩
      constructor
      · intro n htn
        by_contra hn
        rw [huser n (by omega) htn] at hrun
        obtain ⟨rfl, rfl⟩ := EStateM.Result.ok.inj hrun
        exact absurd ((hr.invalidFromState_iff .user).mp rfl).1 (by simp)
      · intro hd n htn
        have hg : e.get = (.unavailable, n) := Option.some.inj (hty.symm.trans htn)
        by_contra hn
        rw [tryIntoUntyped_of_unavailable h hd (by rw [hg]) (by rw [hg]; exact hn)] at hrun
        cases hrun
    · rintro ⟨hus, hun⟩
      by_cases hz : e.get = (.user, 0) ∨ e.get = (.kernel, 0)
      · exact reports_released h hz
      · rw [not_or] at hz
        have hne : e.get.1 ≠ .user := by
          intro hu
          have hc := hus e.get.2 (by rw [hty, ← hu])
          exact hz.1 (Prod.ext hu hc)
        refine ⟨_, m, tryIntoUntyped_of_ne env h hz.1 hz.2 fun hd hu => ?_,
          reports_refused h hz.2 hne⟩
        exact hun hd e.get.2 (by rw [hty, ← hu])

/-- A machine whose frame 1 is a `User` frame with one reference. -/
def oneUser : Machine :=
  twoFrames.setEntry 1 ⟨RetypeEntry.valueFor .user 1 RetypeEntry.one_le_maxRefCount⟩

/-- A `User` frame with one reference cannot be released, and the answer does not say why. -/
theorem release_hides_references :
    oneUser.typing frameOne.number = some (.user, 1) ∧
      frameOne.tryIntoUntyped Env.dev oneUser = .ok (.error (.invalidFromState .user)) oneUser ∧
      ¬ ReleaseReports Env.dev oneUser frameOne := by
  have hty : oneUser.typing frameOne.number = some (.user, 1) := by decide
  have hrun : frameOne.tryIntoUntyped Env.dev oneUser =
      .ok (.error (.invalidFromState .user)) oneUser := by rfl
  refine ⟨hty, hrun, ?_⟩
  rintro ⟨r, m', hrun', hr⟩
  rw [hrun] at hrun'
  obtain ⟨rfl, rfl⟩ := EStateM.Result.ok.inj hrun'
  exact absurd ((hr.invalidFromState_iff .user).mp rfl).1 (by simp)

end Harmony
