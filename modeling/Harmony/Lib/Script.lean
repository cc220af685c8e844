import Harmony.Lib.Wp
import Mathlib.Algebra.BigOperators.Group.List.Basic

/-!
# Programs that play a script

A script is a list of events, each a partial step of an abstraction `κ` of the state. A program
plays a script from a state if it returns exactly where the script runs through on what `view`
shows of the state, and then shows what the script ends with; where an event of the script cannot
happen the program stops. So whether the program returns is a question about the script.

* `Plays.seq`: scripts of programs in sequence are joined, with a specification of the first
  program to say what the second one gets.
* `Plays.returns_iff`: a program that plays a script returns iff the script runs through.
* `play_weight`: a quantity that every event moves by a fixed amount.
-/

namespace Harmony.Lib

variable {ε σ κ ι α β : Type}

/-- The abstraction after the events, if they all can happen. -/
def play (step : κ → ι → Option κ) (c : κ) (es : List ι) : Option κ := es.foldlM step c

/-- From `s` the program does what the script does. -/
def Plays (view : σ → κ) (step : κ → ι → Option κ) (x : EStateM ε σ α) (es : List ι) (s : σ) :
    Prop :=
  match play step (view s) es with
  | some c => ∃ a t, x s = .ok a t ∧ view t = c
  | none => ∃ e t, x s = .error e t

section Play

variable {step : κ → ι → Option κ} {c c' : κ} {es fs : List ι}

theorem play_append : play step c (es ++ fs) = (play step c es).bind fun c' => play step c' fs := by
  unfold play
  rw [List.foldlM_append]
  rfl

theorem play_singleton (e : ι) : play step c [e] = step c e := by
  unfold play
  rw [List.foldlM_cons]
  exact bind_pure (step c e)

/-- **A quantity that every event moves by a fixed amount** is moved by the sum of them. -/
theorem play_weight {W : Type} [AddMonoid W] {w : κ → W} {d : ι → W}
    (hstep : ∀ c e c', step c e = some c' → w c' = w c + d e) (h : play step c es = some c') :
    w c' = w c + (es.map d).sum := by
  induction es generalizing c with
  | nil =>
    obtain rfl : c = c' := Option.some.inj h
    simp
  | cons e es ih =>
    unfold play at h
    rw [List.foldlM_cons] at h
    obtain ⟨c₁, hc₁, hrest⟩ := Option.bind_eq_some_iff.mp h
    rw [ih hrest, hstep c e c₁ hc₁, List.map_cons, List.sum_cons, add_assoc]

end Play

section Plays

variable {view : σ → κ} {step : κ → ι → Option κ} {s : σ} {es fs : List ι}

theorem Plays.pure (a : α) : Plays view step (pure a : EStateM ε σ α) [] s := ⟨a, s, rfl, rfl⟩

/-- Code in front that changes nothing of what is shown. -/
theorem Plays.skip {x : EStateM ε σ α} {f : α → EStateM ε σ β} {a : α} {t : σ} (h : x s = .ok a t)
    (hview : view t = view s) (hf : Plays view step (f a) es t) :
    Plays view step (x >>= f) es s := by
  unfold Plays at hf ⊢
  rw [bind_of_eq_ok h, ← hview]
  exact hf

/-- **Sequencing.** -/
theorem Plays.seq {x : EStateM ε σ α} {f : α → EStateM ε σ β} {Q : α → σ → Prop}
    (hx : Plays view step x es s) (hQ : wlp x Q s)
    (hf : ∀ a t, Q a t → Plays view step (f a) fs t) :
    Plays view step (x >>= f) (es ++ fs) s := by
  unfold Plays at hx ⊢
  rw [play_append]
  cases hplay : play step (view s) es with
  | none =>
    rw [hplay] at hx
    obtain ⟨e, t, hrun⟩ := hx
    exact ⟨e, t, bind_of_eq_error hrun⟩
  | some c =>
    rw [hplay] at hx
    obtain ⟨a, t, hrun, rfl⟩ := hx
    rw [bind_of_eq_ok hrun]
    exact hf a t (wlp_ok hQ hrun)

/-- The script written another way. -/
theorem Plays.of_eq {x : EStateM ε σ α} (h : Plays view step x es s) (heq : es = fs) :
    Plays view step x fs s := heq ▸ h

/-- Code behind that plays nothing. -/
theorem Plays.last {x : EStateM ε σ α} {f : α → EStateM ε σ β} (hx : Plays view step x es s)
    (hf : ∀ a t, Plays view step (f a) [] t) : Plays view step (x >>= f) es s :=
  (hx.seq (Q := fun _ _ => True) (wlp_of_ok fun _ _ _ => trivial) fun a t _ => hf a t).of_eq
    (List.append_nil es)

/-- **A program that plays a script returns iff the script runs through.** -/
theorem Plays.returns_iff {x : EStateM ε σ α} (h : Plays view step x es s) :
    (∃ a t, x s = .ok a t) ↔ ∃ c, play step (view s) es = some c := by
  unfold Plays at h
  cases hplay : play step (view s) es with
  | none =>
    rw [hplay] at h
    obtain ⟨e, t, hrun⟩ := h
    simp [hrun]
  | some c =>
    rw [hplay] at h
    obtain ⟨a, t, hrun, _⟩ := h
    simp [hrun]

/-- What a program that returned shows. -/
theorem Plays.play_eq {x : EStateM ε σ α} {a : α} {t : σ} (h : Plays view step x es s)
    (hrun : x s = .ok a t) : play step (view s) es = some (view t) := by
  unfold Plays at h
  cases hplay : play step (view s) es with
  | none =>
    rw [hplay] at h
    obtain ⟨e, t', hrun'⟩ := h
    rw [hrun] at hrun'
    cases hrun'
  | some c =>
    rw [hplay] at h
    obtain ⟨a', t', hrun', rfl⟩ := h
    rw [hrun] at hrun'
    cases hrun'
    rfl

end Plays

end Harmony.Lib
