import Mathlib.Data.List.Induction
import Mathlib.Data.Option.Basic

/-!
# Walks in a graph whose edges carry keys

`next n k` is the node that the edge of `n` under the key `k` leads to, if there is one. A list of
keys is followed from a node one edge at a time; nodes may be shared and edges may form cycles.

* `follow_eq_none`: a walk fails at one definite missing edge.
* `IsTree.keys_unique`: where no node has two incoming edges, a node is reached from the root along
  one list of keys only.
* `follow_agree`: two graphs that differ in one edge give the same walk to every list of keys that
  does not use that edge.
-/

namespace Harmony.Lib.Walk

variable {N K : Type}

/-- The node that the keys `ks` lead to from `n`. -/
def follow (next : N → K → Option N) (n : N) (ks : List K) : Option N := ks.foldlM next n

/-- Following `ks` from `n` looks up the edge of `a` under `k`. -/
def Uses (next : N → K → Option N) (n : N) (ks : List K) (a : N) (k : K) : Prop :=
  ∃ pre rest, ks = pre ++ k :: rest ∧ follow next n pre = some a

@[simp] theorem follow_nil (next : N → K → Option N) (n : N) : follow next n [] = some n := rfl

@[simp] theorem follow_cons (next : N → K → Option N) (n : N) (k : K) (ks : List K) :
    follow next n (k :: ks) = (next n k).bind fun c => follow next c ks := rfl

theorem follow_concat (next : N → K → Option N) (n : N) (ks : List K) (k : K) :
    follow next n (ks ++ [k]) = (follow next n ks).bind fun c => next c k := by
  unfold follow
  rw [List.foldlM_append]
  simp

/-- A walk fails exactly when some edge on its way is missing. -/
theorem follow_eq_none {next : N → K → Option N} {n : N} {ks : List K} :
    follow next n ks = none ↔ ∃ a k, Uses next n ks a k ∧ next a k = none := by
  induction ks generalizing n with
  | nil =>
    constructor
    · intro h
      exact absurd h (Option.some_ne_none n)
    · rintro ⟨a, k, ⟨pre, rest, hks, _⟩, _⟩
      exact absurd hks.symm (by simp)
  | cons j js ih =>
    rw [follow_cons]
    cases hj : next n j with
    | none =>
      simp only [Option.bind_none, true_iff]
      exact ⟨n, j, ⟨[], js, rfl, rfl⟩, hj⟩
    | some c =>
      rw [Option.bind_some, ih]
      constructor
      · rintro ⟨a, k, ⟨pre, rest, rfl, hpre⟩, hmissing⟩
        exact ⟨a, k, ⟨j :: pre, rest, rfl, by rw [follow_cons, hj]; exact hpre⟩, hmissing⟩
      · rintro ⟨a, k, ⟨pre, rest, hks, hpre⟩, hmissing⟩
        cases pre with
        | nil =>
          -- the missing edge would be the first one, which is there
          obtain ⟨rfl, rfl⟩ : j = k ∧ js = rest := by simpa using hks
          obtain rfl : n = a := by simpa using hpre
          rw [hj] at hmissing
          cases hmissing
        | cons i pre =>
          obtain ⟨rfl, rfl⟩ : j = i ∧ js = pre ++ k :: rest := by simpa using hks
          rw [follow_cons, hj] at hpre
          exact ⟨a, k, ⟨pre, rest, rfl, hpre⟩, hmissing⟩

/-- A tree: every node is led to by one edge at most, and the root by none. -/
structure IsTree (next : N → K → Option N) (root : N) : Prop where
  parent_unique : ∀ {a b : N} {j k : K} {n : N},
    next a j = some n → next b k = some n → a = b ∧ j = k
  root_no_parent : ∀ (a : N) (k : K), next a k ≠ some root

/-- In a tree a node is reached from the root along one list of keys only. -/
theorem IsTree.keys_unique {next : N → K → Option N} {root : N} (h : IsTree next root)
    {ks js : List K} {n : N} (hks : follow next root ks = some n)
    (hjs : follow next root js = some n) : ks = js := by
  induction ks using List.reverseRecOn generalizing js n with
  | nil =>
    obtain rfl : root = n := by simpa using hks
    induction js using List.reverseRecOn with
    | nil => rfl
    | append_singleton js j _ =>
      rw [follow_concat, Option.bind_eq_some_iff] at hjs
      obtain ⟨a, _, ha⟩ := hjs
      exact absurd ha (h.root_no_parent a j)
  | append_singleton ks k ih =>
    rw [follow_concat, Option.bind_eq_some_iff] at hks
    obtain ⟨a, hka, hak⟩ := hks
    induction js using List.reverseRecOn with
    | nil =>
      obtain rfl : root = n := by simpa using hjs
      exact absurd hak (h.root_no_parent a k)
    | append_singleton js j _ =>
      rw [follow_concat, Option.bind_eq_some_iff] at hjs
      obtain ⟨b, hjb, hbj⟩ := hjs
      obtain ⟨rfl, rfl⟩ := h.parent_unique hak hbj
      rw [ih hka hjb]

/-- Changing one edge changes no walk that does not use it. -/
theorem follow_agree {next next' : N → K → Option N} {a : N} {k : K}
    (hagree : ∀ b j, ¬ (b = a ∧ j = k) → next' b j = next b j) {n : N} {ks : List K}
    (hks : ¬ Uses next n ks a k) : follow next' n ks = follow next n ks := by
  induction ks generalizing n with
  | nil => rfl
  | cons j js ih =>
    have hfirst : next' n j = next n j := by
      refine hagree n j ?_
      rintro ⟨rfl, rfl⟩
      exact hks ⟨[], js, rfl, rfl⟩
    rw [follow_cons, follow_cons, hfirst]
    cases hj : next n j with
    | none => rfl
    | some c =>
      refine ih fun hjs => hks ?_
      obtain ⟨pre, rest, rfl, hpre⟩ := hjs
      exact ⟨j :: pre, rest, rfl, by rw [follow_cons, hj]; exact hpre⟩

end Harmony.Lib.Walk
