import Harmony.Lib.Wp

/-!
# Programs that keep a log

A program over `σ` becomes one over `σ` and a list of events, newest first: its steps are lifted and
events are written between them. `Erases x y` says that without its log `x` is `y`, so what is
proved about the log of `x` is about a run of `y`. The log survives a stop.

* `Erases.lift`, `Erases.bind`, `Erases.tell`: the rules to erase a log, one per combinator.
* `wp_lift`, `wp_tell`, `wp_lift_bind`: specifications of the parts carry over.
* `Erases.eq_ok`: a run of `y` that returns is one of `x`.
* `KeepsLog`: what is in the log stays in it. Its rules are one per combinator as well.
-/

namespace Harmony.Lib

variable {ε σ ω α β : Type}

/-- A program over `σ` that writes events. -/
abbrev Logged (ε σ ω α : Type) := EStateM ε (σ × List ω) α

namespace Logged

/-- A program that writes none. -/
def lift (x : EStateM ε σ α) : Logged ε σ ω α := fun s =>
  match x s.1 with
  | .ok a t => .ok a (t, s.2)
  | .error e t => .error e (t, s.2)

/-- Write an event. -/
def tell (e : ω) : Logged ε σ ω Unit := fun s => .ok () (s.1, e :: s.2)

/-- The outcome without the log. -/
def forget : EStateM.Result ε (σ × List ω) α → EStateM.Result ε σ α
  | .ok a t => .ok a t.1
  | .error e t => .error e t.1

end Logged

open Logged

/-- Without its log `x` is `y`. -/
def Erases (x : Logged ε σ ω α) (y : EStateM ε σ α) : Prop := ∀ s, forget (x s) = y s.1

namespace Erases

variable {x : Logged ε σ ω α} {y : EStateM ε σ α}

theorem lift (y : EStateM ε σ α) : Erases (Logged.lift y : Logged ε σ ω α) y := by
  intro s
  unfold Logged.lift
  cases y s.1 <;> rfl

theorem pure (a : α) : Erases (Pure.pure a : Logged ε σ ω α) (Pure.pure a) := fun _ => rfl

theorem bind {f : α → Logged ε σ ω β} {g : α → EStateM ε σ β} (h : Erases x y)
    (hf : ∀ a, Erases (f a) (g a)) : Erases (x >>= f) (y >>= g) := by
  intro s
  have hs := h s
  show forget (EStateM.bind x f s) = EStateM.bind y g s.1
  unfold EStateM.bind
  rw [← hs]
  cases x s with
  | ok a t => exact hf a t
  | error e t => rfl

/-- An event leaves no trace. -/
theorem tell {f : Unit → Logged ε σ ω α} (e : ω) (h : Erases (f ()) y) :
    Erases (Logged.tell e >>= f) y := fun s => h (s.1, e :: s.2)

theorem ite {c : Prop} [Decidable c] {x' : Logged ε σ ω α} {y' : EStateM ε σ α} (h : Erases x y)
    (h' : Erases x' y') : Erases (if c then x else x') (if c then y else y') := by
  split
  · exact h
  · exact h'

theorem eq_ok (h : Erases x y) {s t : σ} (log : List ω) {a : α} (hy : y s = .ok a t) :
    ∃ log', x (s, log) = .ok a (t, log') := by
  have hs := h (s, log)
  simp only [hy] at hs
  cases hx : x (s, log) with
  | error e t' =>
    rw [hx] at hs
    cases hs
  | ok b t' =>
    rw [hx] at hs
    obtain ⟨t', log'⟩ := t'
    injection hs with hb ht
    obtain rfl := hb
    obtain rfl : t' = t := ht
    exact ⟨log', rfl⟩

end Erases

section Wp

variable {Q : α → σ × List ω → Prop} {E : ε → σ × List ω → Prop} {s : σ} {log : List ω}

/-- A lifted program does what it does, and the log stays. -/
@[simp] theorem wp_lift (x : EStateM ε σ α) : wp (Logged.lift x) Q E (s, log) ↔
    wp x (fun a t => Q a (t, log)) (fun e t => E e (t, log)) s := by
  unfold wp Logged.lift
  cases x s <;> exact Iff.rfl

@[simp] theorem wp_tell {Q : Unit → σ × List ω → Prop} (e : ω) :
    wp (Logged.tell e) Q E (s, log) ↔ Q () (s, e :: log) := Iff.rfl

/-- A lifted step, then the rest, with the log as it was. -/
theorem wp_lift_bind {x : EStateM ε σ α} {k : α → Logged ε σ ω β} {Q : β → σ × List ω → Prop}
    (hk : ∀ a t, x s = .ok a t → wp (k a) Q E (t, log)) (he : ∀ e t, E e (t, log)) :
    wp (Logged.lift x >>= k) Q E (s, log) := by
  rw [wp_bind, wp_lift]
  unfold wp
  cases hx : x s with
  | ok a t => exact hk a t hx
  | error e t => exact he e t

end Wp

/-- What is in the log stays in it, wherever the program ends. -/
def KeepsLog (x : Logged ε σ ω α) : Prop :=
  ∀ s log e, e ∈ log → wp x (fun _ t => e ∈ t.2) (fun _ t => e ∈ t.2) (s, log)

namespace KeepsLog

theorem lift (x : EStateM ε σ α) : KeepsLog (Logged.lift x : Logged ε σ ω α) := by
  intro s log e he
  rw [wp_lift]
  unfold wp
  cases x s <;> exact he

theorem pure (a : α) : KeepsLog (Pure.pure a : Logged ε σ ω α) := fun _ _ _ he => he

theorem tell (e : ω) : KeepsLog (Logged.tell e : Logged ε σ ω Unit) :=
  fun _ _ _ he => List.mem_cons_of_mem _ he

theorem bind {x : Logged ε σ ω α} {f : α → Logged ε σ ω β} (h : KeepsLog x)
    (hf : ∀ a, KeepsLog (f a)) : KeepsLog (x >>= f) := by
  intro s log e he
  refine wp_seq (h s log e he) ?_ fun _ _ hmem => hmem
  rintro a ⟨t, log'⟩ hmem
  exact hf a t log' e hmem

theorem ite {c : Prop} [Decidable c] {x y : Logged ε σ ω α} (hx : KeepsLog x) (hy : KeepsLog y) :
    KeepsLog (if c then x else y) := by
  split
  · exact hx
  · exact hy

end KeepsLog

end Harmony.Lib
