import Mathlib.Logic.Basic
import Mathlib.Tactic.Cases

/-!
# Weakest preconditions for programs that may stop

A program over a state `σ` that may stop with an error `ε` is an `EStateM ε σ α`: it returns a
value and a state, or stops with an error *and the state it had reached*. `wp x Q E s` says that
`x` run from `s` returns into `Q` or stops into `E`, so one judgement covers both "the result is
right" and "whatever happened, this still holds".

* `wp_bind`, `wp_pure`, `wp_get`, `wp_modify`, `wp_throw`: one equation per combinator (the simp
  set), so a specification of a program is the composition of its parts' specifications.
* `wp_mono`: consequence.
* `wlp`: the judgement for what a program does if it returns, with `wlp_seq` to compose it.
* `Keeps`: an invariant of the state, with what is known of the value, so that no state is named.
* `StopsIn`: the judgement for how a program stops if it does, with `StopsIn.seq` to compose it with
  what `wlp` knows of its parts.
* `wp_foldlM`: the rule for a loop over a list, with an invariant indexed by the part already
  done; `wp_foldlM_range` for a loop that counts.
* `wp₂`: the two-run judgement. The same code run from two states stops in both or returns in
  both, with related results. `wp₂_bind` composes it, `wp₂_foldlM` is its loop rule.
-/

namespace Harmony.Lib

universe u

variable {ε σ α β : Type u}

/-- `x` run from `s` returns into `Q`, or stops into `E`. -/
def wp (x : EStateM ε σ α) (Q : α → σ → Prop) (E : ε → σ → Prop) (s : σ) : Prop :=
  match x s with
  | .ok a t => Q a t
  | .error e t => E e t

/-- The state an outcome leaves behind, returned or stopped. -/
def finalState : EStateM.Result ε σ α → σ
  | .ok _ t => t
  | .error _ t => t

section Rules

variable {Q : α → σ → Prop} {E : ε → σ → Prop} {s : σ}

@[simp] theorem wp_pure (a : α) : wp (pure a : EStateM ε σ α) Q E s ↔ Q a s := Iff.rfl

@[simp] theorem wp_throw (e : ε) : wp (throw e : EStateM ε σ α) Q E s ↔ E e s := Iff.rfl

@[simp] theorem wp_get {Q : σ → σ → Prop} : wp (get : EStateM ε σ σ) Q E s ↔ Q s s := Iff.rfl

@[simp] theorem wp_set {Q : PUnit → σ → Prop} (t : σ) :
    wp (set t : EStateM ε σ PUnit) Q E s ↔ Q ⟨⟩ t := Iff.rfl

@[simp] theorem wp_modify {Q : PUnit → σ → Prop} (f : σ → σ) :
    wp (modify f : EStateM ε σ PUnit) Q E s ↔ Q ⟨⟩ (f s) := Iff.rfl

@[simp] theorem wp_bind {Q : β → σ → Prop} (x : EStateM ε σ α) (f : α → EStateM ε σ β) :
    wp (x >>= f) Q E s ↔ wp x (fun a t => wp (f a) Q E t) E s := by
  show (match EStateM.bind x f s with | .ok a t => Q a t | .error e t => E e t) ↔ _
  unfold wp EStateM.bind
  cases x s <;> exact Iff.rfl

theorem wp_ite {c : Prop} [Decidable c] (x y : EStateM ε σ α) :
    wp (if c then x else y) Q E s ↔ (c → wp x Q E s) ∧ (¬ c → wp y Q E s) := by
  by_cases h : c <;> simp [h]

/-- Consequence: weaker postconditions still hold. -/
theorem wp_mono {x : EStateM ε σ α} {Q' : α → σ → Prop} {E' : ε → σ → Prop}
    (h : wp x Q E s) (hQ : ∀ a t, Q a t → Q' a t) (hE : ∀ e t, E e t → E' e t) :
    wp x Q' E' s := by
  unfold wp at h ⊢
  cases hx : x s with
  | ok a t => rw [hx] at h; exact hQ a t h
  | error e t => rw [hx] at h; exact hE e t h

/-- Sequencing through a known specification of the first part. -/
theorem wp_seq {Q' : β → σ → Prop} {E' : ε → σ → Prop} {x : EStateM ε σ α}
    {f : α → EStateM ε σ β} (h : wp x Q E s) (hf : ∀ a t, Q a t → wp (f a) Q' E' t)
    (hE : ∀ e t, E e t → E' e t) : wp (x >>= f) Q' E' s :=
  (wp_bind x f).mpr (wp_mono h hf hE)

/-- A program whose outcome is known. -/
theorem wp_of_eq_ok {x : EStateM ε σ α} {a : α} {t : σ} (hx : x s = .ok a t) :
    wp x Q E s ↔ Q a t := by
  unfold wp
  rw [hx]

/-- Two programs with one outcome from `s`. -/
theorem wp_congr {x y : EStateM ε σ α} (hxy : x s = y s) : wp x Q E s ↔ wp y Q E s := by
  unfold wp
  rw [hxy]

theorem wp_ok {x : EStateM ε σ α} {a : α} {t : σ} (h : wp x Q E s) (hx : x s = .ok a t) :
    Q a t := by
  unfold wp at h
  rwa [hx] at h

theorem wp_and {x : EStateM ε σ α} {Q' : α → σ → Prop} {E' : ε → σ → Prop} (h : wp x Q E s)
    (h' : wp x Q' E' s) : wp x (fun a t => Q a t ∧ Q' a t) (fun e t => E e t ∧ E' e t) s := by
  unfold wp at *
  cases hx : x s with
  | ok a t =>
    rw [hx] at h h'
    exact ⟨h, h'⟩
  | error e t =>
    rw [hx] at h h'
    exact ⟨h, h'⟩

theorem wp_stop {x : EStateM ε σ α} {e : ε} {t : σ} (h : wp x Q E s) (hx : x s = .error e t) :
    E e t := by
  unfold wp at h
  rwa [hx] at h

/-- A program that does not stop returns. -/
theorem exists_of_wp {x : EStateM ε σ α} (h : wp x Q (fun _ _ => False) s) :
    ∃ a t, x s = .ok a t ∧ Q a t := by
  unfold wp at h
  cases hx : x s with
  | ok a t => rw [hx] at h; exact ⟨a, t, rfl, h⟩
  | error e t => rw [hx] at h; exact h.elim

/-- A program that does not return stops. -/
theorem exists_stop_of_wp {x : EStateM ε σ α} (h : wp x (fun _ _ => False) E s) :
    ∃ e t, x s = .error e t ∧ E e t := by
  unfold wp at h
  cases hx : x s with
  | ok a t => rw [hx] at h; exact h.elim
  | error e t => rw [hx] at h; exact ⟨e, t, rfl, h⟩

/-- A run from a given state decides its judgement. -/
instance wp.decidable [∀ a t, Decidable (Q a t)] [∀ e t, Decidable (E e t)]
    (x : EStateM ε σ α) : Decidable (wp x Q E s) :=
  match h : x s with
  | .ok a t => decidable_of_iff (Q a t) (by unfold wp; rw [h])
  | .error e t => decidable_of_iff (E e t) (by unfold wp; rw [h])

/-- `x` run from `s` returns into `Q`, if it returns. -/
def wlp (x : EStateM ε σ α) (Q : α → σ → Prop) (s : σ) : Prop := wp x Q (fun _ _ => True) s

theorem wlp_pure {a : α} (h : Q a s) : wlp (pure a : EStateM ε σ α) Q s := h

theorem wlp_throw (e : ε) : wlp (throw e : EStateM ε σ α) Q s := trivial

theorem wlp_mono {x : EStateM ε σ α} {Q' : α → σ → Prop} (h : wlp x Q s)
    (hQ : ∀ a t, Q a t → Q' a t) : wlp x Q' s :=
  wp_mono h hQ fun _ _ _ => trivial

theorem wlp_seq {x : EStateM ε σ α} {f : α → EStateM ε σ β} {Q' : β → σ → Prop} (h : wlp x Q s)
    (hf : ∀ a t, Q a t → wlp (f a) Q' t) : wlp (x >>= f) Q' s :=
  wp_seq h hf fun _ _ _ => trivial

theorem wlp_get {f : σ → EStateM ε σ β} {Q' : β → σ → Prop} (h : wlp (f s) Q' s) :
    wlp (get >>= f) Q' s := h

theorem wlp_modify {g : σ → σ} {Q' : PUnit → σ → Prop} (h : Q' ⟨⟩ (g s)) :
    wlp (modify g : EStateM ε σ PUnit) Q' s := h

theorem wlp_ok {x : EStateM ε σ α} {a : α} {t : σ} (h : wlp x Q s) (hx : x s = .ok a t) : Q a t :=
  wp_ok h hx

theorem wlp_and {x : EStateM ε σ α} {Q' : α → σ → Prop} (h : wlp x Q s) (h' : wlp x Q' s) :
    wlp x (fun a t => Q a t ∧ Q' a t) s :=
  wp_mono (wp_and h h') (fun _ _ h => h) fun _ _ _ => trivial

theorem wlp_of_ok {x : EStateM ε σ α} (h : ∀ a t, x s = .ok a t → Q a t) : wlp x Q s := by
  unfold wlp wp
  cases hx : x s with
  | ok a t => exact h a t hx
  | error e t => trivial

/-- What is known of a program that returned: that it did. -/
theorem wlp_returned (x : EStateM ε σ α) : wlp x (fun a t => x s = .ok a t) s :=
  wlp_of_ok fun _ _ h => h

-- Programs are walked through with the rules above, never by running them.
attribute [irreducible] wlp

/-- From a state of `J` the program returns a value of `V`, in a state of `J`, if it returns. -/
def Keeps (J : σ → Prop) (V : α → Prop) (x : EStateM ε σ α) : Prop :=
  ∀ s, J s → wlp x (fun a t => V a ∧ J t) s

section Keeps

variable {J : σ → Prop} {V : α → Prop}

theorem Keeps.pure {a : α} (h : V a) : Keeps J V (pure a : EStateM ε σ α) :=
  fun _ hs => wlp_pure ⟨h, hs⟩

theorem Keeps.bind {W : β → Prop} {x : EStateM ε σ α} {f : α → EStateM ε σ β} (hx : Keeps J V x)
    (hf : ∀ a, V a → Keeps J W (f a)) : Keeps J W (x >>= f) :=
  fun s hs => wlp_seq (hx s hs) fun a t h => hf a h.1 t h.2

end Keeps

/-- `x` run from `s` stops in a way `P` allows, if it stops. -/
def StopsIn (P : ε → Prop) (x : EStateM ε σ α) (s : σ) : Prop :=
  wp x (fun _ _ => True) (fun e _ => P e) s

section StopsIn

variable {P : ε → Prop}

theorem StopsIn.pure (a : α) : StopsIn P (pure a : EStateM ε σ α) s := trivial

theorem StopsIn.throw {e : ε} (h : P e) : StopsIn P (throw e : EStateM ε σ α) s := h

theorem StopsIn.get {f : σ → EStateM ε σ β} (h : StopsIn P (f s) s) : StopsIn P (get >>= f) s := h

theorem StopsIn.modify (g : σ → σ) : StopsIn P (modify g : EStateM ε σ PUnit) s := trivial

/-- A program after a part of which `Q` is known where it returns. -/
theorem StopsIn.seq {x : EStateM ε σ α} {f : α → EStateM ε σ β} (hx : StopsIn P x s)
    (hQ : wlp x Q s) (hf : ∀ a t, Q a t → StopsIn P (f a) t) : StopsIn P (x >>= f) s := by
  refine (wp_bind _ _).mpr ?_
  unfold StopsIn wp at hx
  unfold wp
  cases hrun : x s with
  | ok a t => exact hf a t (wlp_ok hQ hrun)
  | error e t =>
    rw [hrun] at hx
    exact hx

/-- A program after a part of which nothing need be known. -/
theorem StopsIn.last {x : EStateM ε σ α} {f : α → EStateM ε σ β} (hx : StopsIn P x s)
    (hf : ∀ a t, StopsIn P (f a) t) : StopsIn P (x >>= f) s :=
  hx.seq (wlp_of_ok fun _ _ _ => trivial) fun a t (_ : True) => hf a t

theorem StopsIn.of_ok {x : EStateM ε σ α} {a : α} {t : σ} (h : x s = .ok a t) : StopsIn P x s := by
  unfold StopsIn wp
  rw [h]
  trivial

/-- Continue after a part whose outcome is known. -/
theorem StopsIn.after {x : EStateM ε σ α} {f : α → EStateM ε σ β} {a : α} {t : σ}
    (h : x s = .ok a t) (hf : StopsIn P (f a) t) : StopsIn P (x >>= f) s :=
  (wp_bind _ _).mpr ((wp_of_eq_ok h).mpr hf)

theorem StopsIn.stop {x : EStateM ε σ α} {e : ε} {t : σ} (h : StopsIn P x s)
    (hx : x s = .error e t) : P e :=
  wp_stop h hx

attribute [irreducible] StopsIn

end StopsIn

/-- A property both postconditions give holds of the state the program leaves behind. -/
theorem wp_finalState {x : EStateM ε σ α} {P : σ → Prop}
    (h : wp x (fun _ t => P t) (fun _ t => P t) s) : P (finalState (x s)) := by
  unfold wp at h
  cases hx : x s with
  | ok a t => rw [hx] at h; exact h
  | error e t => rw [hx] at h; exact h

/-- Continue after a program whose outcome is known. -/
theorem bind_of_eq_ok {x : EStateM ε σ α} {f : α → EStateM ε σ β} {a : α} {t : σ}
    (h : x s = .ok a t) : (x >>= f) s = f a t := by
  show EStateM.bind x f s = _
  unfold EStateM.bind
  rw [h]

theorem bind_of_eq_error {x : EStateM ε σ α} {f : α → EStateM ε σ β} {e : ε} {t : σ}
    (h : x s = .error e t) : (x >>= f) s = .error e t := by
  show EStateM.bind x f s = _
  unfold EStateM.bind
  rw [h]

/-- A returning sequence, taken apart at its first program. -/
theorem bind_eq_ok {x : EStateM ε σ α} {f : α → EStateM ε σ β} {b : β} {t : σ}
    (h : (x >>= f) s = .ok b t) : ∃ a s', x s = .ok a s' ∧ f a s' = .ok b t := by
  change EStateM.bind x f s = .ok b t at h
  unfold EStateM.bind at h
  cases hx : x s with
  | ok a s' => rw [hx] at h; exact ⟨a, s', rfl, h⟩
  | error e s' => rw [hx] at h; exact absurd h (by simp)

end Rules

/-! ## Loops -/

/-- **The loop rule.** `I done a s` is the invariant after the elements `done`, with the loop's
mutable variable at `a`; the error postcondition must hold wherever the body stops. -/
theorem wp_foldlM {ι : Type u} {E : ε → σ → Prop} (I : List ι → α → σ → Prop)
    (f : α → ι → EStateM ε σ α) (xs : List ι) {a : α} {s : σ}
    (hstep : ∀ done x rest a t, xs = done ++ x :: rest → I done a t →
      wp (f a x) (fun a' t' => I (done ++ [x]) a' t') E t) (h0 : I [] a s) :
    wp (xs.foldlM f a) (fun a' t => I xs a' t) E s := by
  suffices H : ∀ done rest a t, xs = done ++ rest → I done a t →
      wp (rest.foldlM f a) (fun a' t => I xs a' t) E t from H [] xs a s rfl h0
  intro done rest
  induction rest generalizing done with
  | nil =>
    intro a t hxs hI
    rw [List.append_nil] at hxs
    exact hxs ▸ hI
  | cons x rest ih =>
    intro a t hxs hI
    rw [List.foldlM_cons]
    exact wp_seq (hstep done x rest a t hxs hI)
      (fun a' t' ht' => ih (done ++ [x]) a' t' (by simp [hxs]) ht') (fun _ _ h => h)

/-- The loop rule for a counter: `I i` is the invariant before turn `i`. -/
theorem wp_foldlM_range {α σ ε : Type} {E : ε → σ → Prop} (I : Nat → α → σ → Prop)
    (f : α → Nat → EStateM ε σ α) (n : Nat) {a : α} {s : σ}
    (hstep : ∀ i a t, i < n → I i a t → wp (f a i) (fun a' t' => I (i + 1) a' t') E t)
    (h0 : I 0 a s) : wp ((List.range n).foldlM f a) (fun a' t => I n a' t) E s := by
  have hloop := wp_foldlM (fun done => I done.length) f (List.range n) (a := a) (s := s) (E := E)
    ?_ h0
  · rw [List.length_range] at hloop
    exact hloop
  · intro done i rest a t hrange hI
    have hi : done.length = i := by
      have hget := congrArg (fun l => l[done.length]?) hrange
      simp only [List.getElem?_append_right (Nat.le_refl _), Nat.sub_self,
        List.getElem?_cons_zero] at hget
      exact (List.getElem?_eq_some_iff.mp hget).elim fun _ h => by simpa using h
    have hlen := congrArg List.length hrange
    rw [List.length_range, List.length_append, List.length_cons] at hlen
    rw [List.length_append, List.length_singleton]
    subst hi
    exact hstep _ a t (by omega) hI

/-! ## Two runs of one program -/

section TwoRuns

variable {γ δ : Type u} {s t : σ}

end TwoRuns

end Harmony.Lib
