import Mathlib.Logic.Basic
import Mathlib.Data.List.Induction

/-!
# Runs of a labelled step relation

`Run step s ls t` is a finite run from `s` to `t` whose steps carry the labels `ls`. Safety is one
rule, `Run.invariant`: what a step preserves, a run preserves. `Run.split` and `Run.trans` cut and
join runs. `Run.length_le` bounds a run by what each step uses up.

`Along` and `StepsAlong` speak of every state, and every step, of a label list. `along_iff` is the
rule for a law that holds exactly as long as each step meets a condition, `Run.along_iff` the one
for the steps of a run.
-/

namespace Harmony.Lib

variable {σ ι : Type}

/-- A finite run, labels in order. -/
inductive Run (step : σ → ι → σ → Prop) : σ → List ι → σ → Prop
  | nil (s : σ) : Run step s [] s
  | cons {s t u : σ} {l : ι} {ls : List ι} (h : step s l t) (r : Run step t ls u) :
      Run step s (l :: ls) u

variable {step : σ → ι → σ → Prop} {s t u : σ} {l : ι} {ls ms : List ι}

/-- **The invariant rule**, where a step may use that its label is one of the run's. -/
theorem Run.invariant_mem {L : List ι} (I : σ → Prop)
    (hstep : ∀ s l t, l ∈ L → I s → step s l t → I t) (r : Run step s ls t) (hL : ls ⊆ L)
    (h : I s) : I t := by
  induction r with
  | nil => exact h
  | cons hs _ ih =>
    obtain ⟨hl, hls⟩ := List.cons_subset.mp hL
    exact ih hls (hstep _ _ _ hl h hs)

/-- **The invariant rule.** -/
theorem Run.invariant (I : σ → Prop) (hstep : ∀ s l t, I s → step s l t → I t)
    (r : Run step s ls t) (h : I s) : I t :=
  r.invariant_mem I (fun s l t _ => hstep s l t) (List.Subset.refl ls) h

theorem Run.mono {step' : σ → ι → σ → Prop} (h : ∀ s l t, step s l t → step' s l t)
    (r : Run step s ls t) : Run step' s ls t := by
  induction r with
  | nil s => exact .nil s
  | cons hs _ ih => exact .cons (h _ _ _ hs) ih

theorem Run.trans (r : Run step s ls t) (r' : Run step t ms u) : Run step s (ls ++ ms) u := by
  induction r with
  | nil => exact r'
  | cons hs _ ih => exact Run.cons hs (ih r')

theorem Run.concat (r : Run step s ls t) (h : step t l u) : Run step s (ls ++ [l]) u :=
  r.trans (Run.cons h (Run.nil u))

theorem Run.split (r : Run step s (ls ++ ms) u) : ∃ t, Run step s ls t ∧ Run step t ms u := by
  induction ls generalizing s with
  | nil => exact ⟨s, Run.nil s, r⟩
  | cons k ks ih =>
    cases r with
    | cons hs r' =>
      obtain ⟨t, h1, h2⟩ := ih r'
      exact ⟨t, Run.cons hs h1, h2⟩

theorem Run.cons_inv (r : Run step s (l :: ls) u) : ∃ t, step s l t ∧ Run step t ls u := by
  cases r with
  | cons hs r' => exact ⟨_, hs, r'⟩

theorem Run.concat_inv (r : Run step s (ls ++ [l]) u) : ∃ t, Run step s ls t ∧ step t l u := by
  obtain ⟨t, h1, h2⟩ := r.split
  obtain ⟨u', hs, hnil⟩ := h2.cons_inv
  cases hnil
  exact ⟨t, h1, hs⟩

/-- **The invariant rule with a history.** What a step preserves while it adds its label, a run
preserves for its labels. -/
theorem Run.history (I : List ι → σ → Prop)
    (hstep : ∀ ls t l u, I ls t → step t l u → I (ls ++ [l]) u) (r : Run step s ls t) (h : I [] s) :
    I ls t := by
  induction ls using List.reverseRecOn generalizing t with
  | nil =>
    cases r
    exact h
  | append_singleton ls l ih =>
    obtain ⟨u, hu, hs⟩ := r.concat_inv
    exact hstep ls u l t (ih hu) hs

/-- **The simulation rule.** Steps with a label `seen` shows are matched by a step with that label,
the others by none; so a run is matched by one with the labels that show. -/
theorem Run.simulates {τ κ : Type} {abstract : τ → κ → τ → Prop} {seen : ι → Option κ}
    {R : σ → τ → Prop} (hhidden : ∀ s l t a, R s a → step s l t → seen l = none → R t a)
    (hshown : ∀ s l t a e, R s a → step s l t → seen l = some e → ∃ b, abstract a e b ∧ R t b)
    (r : Run step s ls t) {a : τ} (h : R s a) :
    ∃ b, Run abstract a (ls.filterMap seen) b ∧ R t b := by
  induction r generalizing a with
  | nil => exact ⟨a, .nil a, h⟩
  | @cons s t u l ls hs _ ih =>
    cases hl : seen l with
    | none =>
      rw [List.filterMap_cons_none hl]
      exact ih (hhidden s l t a h hs hl)
    | some e =>
      obtain ⟨b, hb, hR⟩ := hshown s l t a e h hs hl
      obtain ⟨b', hrun, hR'⟩ := ih hR
      rw [List.filterMap_cons_some hl]
      exact ⟨b', .cons hb hrun, hR'⟩

/-- **The ranking rule.** A run is no longer than the rank of its first state, where a step from `I`
lowers it. -/
theorem Run.length_le {I : σ → Prop} {rank : σ → Int} (h0 : ∀ s, 0 ≤ rank s)
    (hstep : ∀ s l t, I s → step s l t → I t ∧ rank t < rank s) (r : Run step s ls t) (h : I s) :
    (ls.length : Int) ≤ rank s := by
  induction r with
  | nil => exact h0 _
  | cons hs _ ih =>
    obtain ⟨hI, hless⟩ := hstep _ _ _ h hs
    have hrest := ih hI
    rw [List.length_cons]
    omega

/-- `P` holds in every state reached on the way through `ls`. -/
def Along (step : σ → ι → σ → Prop) (s : σ) (ls : List ι) (P : σ → Prop) : Prop :=
  ∀ pre post t, ls = pre ++ post → Run step s pre t → P t

/-- `C` holds of every label of `ls` in the state it is met in. -/
def StepsAlong (step : σ → ι → σ → Prop) (s : σ) (ls : List ι) (C : σ → ι → Prop) : Prop :=
  ∀ pre l post t, ls = pre ++ l :: post → Run step s pre t → C t l

/-- The labels meet `C` in every state, so they do in those of a run. -/
theorem stepsAlong_of_forall {C : σ → ι → Prop} (h : ∀ l ∈ ls, ∀ t, C t l) :
    StepsAlong step s ls C := by
  intro pre l post t hls _
  exact h l (by simp [hls]) t

/-- A condition on the legal steps of a system that has not stopped, where it is not met. -/
theorem of_not_guarded {w : σ} {Legal C : σ → Prop}
    (h : ¬ ∀ w', some w = some w' → Legal w' → C w') : Legal w ∧ ¬ C w := by
  by_contra hno
  refine h fun w' hw' hlegal => ?_
  obtain rfl := Option.some.inj hw'
  by_contra hne
  exact hno ⟨hlegal, hne⟩

/-- A step that meets `C` keeps `I`, so `I` holds along `ls` if every step meets `C`. -/
theorem along_of_steps {I : σ → Prop} {C : σ → ι → Prop} (h0 : I s)
    (hkeep : ∀ t l u, I t → C t l → step t l u → I u) (hC : StepsAlong step s ls C) :
    Along step s ls I := by
  intro pre
  induction pre using List.reverseRecOn with
  | nil =>
    intro post t _ r
    cases r
    exact h0
  | append_singleton pre l ih =>
    intro post t hls r
    obtain ⟨t', hpre, hs⟩ := r.concat_inv
    have hls' : ls = pre ++ l :: post := by simp [hls]
    exact hkeep t' l t (ih (l :: post) t' hls' hpre) (hC pre l post t' hls' hpre) hs

/-- **A law that holds exactly as long as the steps meet a condition.** `I` is what a step that
meets `C` preserves, `P` the law it implies; a step from `I` that does not meet `C` can break
`P`. -/
theorem along_iff {I P : σ → Prop} {C : σ → ι → Prop} (h0 : I s) (hP : ∀ t, I t → P t)
    (hkeep : ∀ t l u, I t → C t l → step t l u → I u)
    (hbreak : ∀ t l, I t → ¬ C t l → ∃ u, step t l u ∧ ¬ P u) :
    Along step s ls P ↔ StepsAlong step s ls C := by
  constructor
  · intro hlaw pre
    -- the steps before this one meet `C`, so `I` holds where it is taken
    induction hn : pre.length using Nat.strongRecOn generalizing pre with
    | ind n ih =>
      intro l post t hls r
      have hbefore : StepsAlong step s pre C := by
        intro pre' l' post' t' hpre r'
        refine ih pre'.length ?_ pre' rfl l' (post' ++ l :: post) t' (by simp [hls, hpre]) r'
        rw [← hn, hpre]
        simp
      have hI : I t := along_of_steps h0 hkeep hbefore pre [] t (by simp) r
      by_contra hnot
      obtain ⟨u, hs, hu⟩ := hbreak t l hI hnot
      exact hu (hlaw (pre ++ [l]) post u (by simp [hls]) (r.concat hs))
  · intro hC pre post t hls r
    exact hP t (along_of_steps h0 hkeep hC pre post t hls r)

/-- Where a step has one outcome, labels have one run. -/
theorem Run.unique (hdet : ∀ s l t u, step s l t → step s l u → t = u) (r : Run step s ls t)
    (r' : Run step s ls u) : t = u := by
  induction r with
  | nil =>
    cases r'
    rfl
  | cons hs _ ih =>
    obtain ⟨t', hs', hrest⟩ := r'.cons_inv
    obtain rfl := hdet _ _ _ _ hs hs'
    exact ih hrest

/-- **The same law along a run**, where a step has one outcome: every step that does not meet `C`
breaks `P`, if it is taken. -/
theorem Run.along_iff {I P : σ → Prop} {C : σ → ι → Prop}
    (hdet : ∀ s l t u, step s l t → step s l u → t = u) (r : Run step s ls u) (h0 : I s)
    (hP : ∀ t, I t → P t) (hkeep : ∀ t l u, I t → C t l → step t l u → I u)
    (hbreak : ∀ t l u, I t → ¬ C t l → step t l u → ¬ P u) :
    Along step s ls P ↔ StepsAlong step s ls C := by
  have htaken : StepsAlong step s ls C ↔
      StepsAlong step s ls fun t l => (∃ u, step t l u) → C t l := by
    refine ⟨fun h pre l post t hls hpre _ => h pre l post t hls hpre, ?_⟩
    intro h pre l post t hls hpre
    rw [hls] at r
    obtain ⟨t', hpre', hrest⟩ := r.split
    obtain rfl := hpre.unique hdet hpre'
    obtain ⟨v, hs, _⟩ := hrest.cons_inv
    exact h pre l post t hls hpre ⟨v, hs⟩
  rw [htaken]
  refine Lib.along_iff h0 hP (fun t l u ht hC hs => hkeep t l u ht (hC ⟨u, hs⟩) hs) ?_
  intro t l ht hnot
  obtain ⟨⟨v, hs⟩, hC⟩ := Classical.not_imp.mp hnot
  exact ⟨v, hs, hbreak t l v ht hC hs⟩

end Harmony.Lib
