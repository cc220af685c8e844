import Mathlib.Logic.Relation
import Harmony.Lib.Run
import Harmony.Lib.Walk

/-!
# Reachability in a graph that is rewired

A graph is a relation on nodes; a node is reached along one edge or more. In each step an actor
rewires the graph: every edge of the new graph is an old one, or leads to something the actor
reached, or to a node just made.

* `reflTransGen_of_follow`: a walk along keys is a path.
* `reach_step`: what a node reaches after such a step.
* `reach_run`: what it reaches after any number of them.
-/

namespace Harmony.Lib.Reach

open Relation (TransGen ReflTransGen)

variable {N σ ι : Type}

theorem reflTransGen_of_follow {K : Type} {next : N → K → Option N} {E : N → N → Prop}
    (hE : ∀ a k b, next a k = some b → E a b) {n m : N} {ks : List K}
    (h : Walk.follow next n ks = some m) : ReflTransGen E n m := by
  induction ks generalizing n with
  | nil =>
    obtain rfl : n = m := by simpa using h
    exact .refl
  | cons k ks ih =>
    rw [Walk.follow_cons, Option.bind_eq_some_iff] at h
    obtain ⟨c, hc, h⟩ := h
    exact .head (hE n k c hc) (ih h)

/-- After one step a node reaches what it reached, what the actor reached, and what was made. The
edges of a node that was made are all new. -/
theorem reach_step {E E' : N → N → Prop} {a : N} {Made : N → Prop}
    (h : ∀ m n, E' m n → (¬ Made m ∧ E m n) ∨ TransGen E a n ∨ Made n) {b n : N}
    (hb : TransGen E' b n) : TransGen E b n ∨ TransGen E a n ∨ Made n := by
  induction hb with
  | single hedge =>
    rcases h _ _ hedge with ⟨_, hold⟩ | hnew
    · exact .inl (.single hold)
    · exact .inr hnew
  | tail _ hedge ih =>
    rcases h _ _ hedge with ⟨hnot, hold⟩ | hnew
    · rcases ih with hreach | hreach | hmade
      · exact .inl (hreach.tail hold)
      · exact .inr (.inl (hreach.tail hold))
      · exact absurd hmade hnot
    · exact .inr hnew

section Runs

variable {step : σ → ι → σ → Prop} {E : σ → N → N → Prop} {actor : ι → N}
  {Made : σ → ι → σ → N → Prop}

/-- Some step of the run made the node. -/
def MadeIn (step : σ → ι → σ → Prop) (Made : σ → ι → σ → N → Prop) (s : σ) (ls : List ι) (t : σ)
    (n : N) : Prop :=
  ∃ pre l post u v, ls = pre ++ l :: post ∧ Run step s pre u ∧ step u l v ∧ Run step v post t ∧
    Made u l v n

/-- After a run a node reaches what was made on the way, what it reached at the start, and what
some actor of the run reached at the start. -/
theorem reach_run
    (hstep : ∀ s l t, step s l t → ∀ b n, TransGen (E t) b n →
      TransGen (E s) b n ∨ TransGen (E s) (actor l) n ∨ Made s l t n)
    {s t : σ} {ls : List ι} (r : Run step s ls t) {b n : N} (hb : TransGen (E t) b n) :
    MadeIn step Made s ls t n ∨ TransGen (E s) b n ∨ ∃ l ∈ ls, TransGen (E s) (actor l) n := by
  induction r with
  | nil => exact .inr (.inl hb)
  | @cons s u t l ls hs r ih =>
    -- what was reached after the first step was reached before it, or made by it
    have hfirst : ∀ c, TransGen (E u) c n →
        MadeIn step Made s (l :: ls) t n ∨ TransGen (E s) c n ∨ TransGen (E s) (actor l) n := by
      intro c hc
      rcases hstep s l u hs c n hc with h | h | h
      · exact .inr (.inl h)
      · exact .inr (.inr h)
      · exact .inl ⟨[], l, ls, s, u, rfl, Run.nil s, hs, r, h⟩
    rcases ih hb with
      ⟨pre, l', post, v, w, rfl, hpre, hs', hpost, hmade⟩ | hreach | ⟨l', hl', hreach⟩
    · exact .inl ⟨l :: pre, l', post, v, w, rfl, Run.cons hs hpre, hs', hpost, hmade⟩
    · rcases hfirst b hreach with h | h | h
      · exact .inl h
      · exact .inr (.inl h)
      · exact .inr (.inr ⟨l, List.mem_cons_self, h⟩)
    · rcases hfirst (actor l') hreach with h | h | h
      · exact .inl h
      · exact .inr (.inr ⟨l', List.mem_cons_of_mem l hl', h⟩)
      · exact .inr (.inr ⟨l, List.mem_cons_self, h⟩)

end Runs

end Harmony.Lib.Reach
