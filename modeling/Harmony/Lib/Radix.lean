import Mathlib.Data.List.Induction
import Mathlib.Data.Option.Basic

/-!
# Radix trees kept in a store of tables

A table `n` has an entry `σ n k` under every key `k`, and an entry that is present points to the
table `tgt e`. A path of keys from the root meets the entries `trail`; the tables met by the paths
shorter than `depth` are the tree's nodes, and the entries met by the paths of length `depth` are
its translations. `scope` restricts the paths to those whose first key it accepts, so one part of a
root table can be a tree while the rest is anything.

* `Tree`: no node is pointed to by two entries, and none points back to the root. Then a node is
  reached along one path only (`Tree.path_unique`).
* `LeafWrite.trail_other`: writing one entry of a bottom node changes the translation of one path.
* `Graft.trail_full`, `Graft.tree`: hanging a fresh empty table under an empty entry changes no
  translation, and the result is a tree again with one more node.
* `Grows`: any number of grafts, as a relation that composes (`Grows.trans`).
* `trail_congr`, `tree_congr`: a store that agrees on the nodes is the same tree.
-/

namespace Harmony.Lib.Radix

variable {N K E : Type}

/-- The table the entries `es`, followed from `root`, lead to. -/
def endOf (tgt : E → N) (root : N) (es : List E) : N := es.foldl (fun _ e => tgt e) root

/-- The entries met along the keys `ks` from `root`, or `none` when one of them is missing. -/
def trail (tgt : E → N) (σ : N → K → Option E) (root : N) (ks : List K) : Option (List E) :=
  ks.foldlM (fun es k => (σ (endOf tgt root es) k).map fun e => es ++ [e]) []

/-- The paths whose first key `scope` accepts. -/
def Scoped (scope : K → Prop) : List K → Prop
  | [] => True
  | k :: _ => scope k

@[simp] theorem endOf_concat (tgt : E → N) (root : N) (es : List E) (e : E) :
    endOf tgt root (es ++ [e]) = tgt e := by
  simp [endOf]

@[simp] theorem trail_nil (tgt : E → N) (σ : N → K → Option E) (root : N) :
    trail tgt σ root [] = some [] := rfl

theorem trail_concat (tgt : E → N) (σ : N → K → Option E) (root : N) (ks : List K) (k : K) :
    trail tgt σ root (ks ++ [k]) =
      (trail tgt σ root ks).bind fun es => (σ (endOf tgt root es) k).map fun e => es ++ [e] := by
  unfold trail
  rw [List.foldlM_append]
  simp

/-- The first step of a path, taken on its own. -/
theorem trail_cons (tgt : E → N) (σ : N → K → Option E) (root : N) (k : K) (ks : List K) :
    trail tgt σ root (k :: ks) =
      (σ root k).bind fun e => (trail tgt σ (tgt e) ks).map fun es => e :: es := by
  induction ks using List.reverseRecOn with
  | nil =>
    refine (trail_concat tgt σ root [] k).trans ?_
    exact (Option.map_eq_bind).trans rfl
  | append_singleton js j ih =>
    rw [← List.cons_append, trail_concat, ih]
    cases hk : σ root k with
    | none => rfl
    | some e =>
      simp only [Option.bind_some, trail_concat]
      cases htr : trail tgt σ (tgt e) js with
      | none => rfl
      | some es =>
        have hend : endOf tgt root (e :: es) = endOf tgt (tgt e) es := rfl
        simp only [Option.map_some, Option.bind_some, hend, Option.map_map]
        rfl

/-- A path meets one entry a key. -/
theorem length_of_trail {tgt : E → N} {σ : N → K → Option E} {root : N} {ks : List K} :
    ∀ {es : List E}, trail tgt σ root ks = some es → es.length = ks.length := by
  induction ks using List.reverseRecOn with
  | nil =>
    intro es h
    obtain rfl : es = [] := by simpa using h.symm
    rfl
  | append_singleton js j ih =>
    intro es h
    rw [trail_concat] at h
    obtain ⟨ds, hds, hlast⟩ := Option.bind_eq_some_iff.mp h
    obtain ⟨d, _, rfl⟩ := Option.map_eq_some_iff.mp hlast
    rw [List.length_append, List.length_append, ih hds]
    rfl

theorem scoped_of_concat {scope : K → Prop} {ks : List K} {k : K} (h : Scoped scope (ks ++ [k])) :
    Scoped scope ks := by
  cases ks with
  | nil => trivial
  | cons j js => exact h

section Tree

variable {tgt : E → N} {σ σ' : N → K → Option E} {root : N} {depth : Nat} {scope : K → Prop}

/-- Table `n` is a node: the path `ks`, shorter than `depth` and in scope, leads to it. -/
def Node (tgt : E → N) (σ : N → K → Option E) (root : N) (depth : Nat) (scope : K → Prop)
    (ks : List K) (n : N) : Prop :=
  ks.length < depth ∧ Scoped scope ks ∧ ∃ es, trail tgt σ root ks = some es ∧ endOf tgt root es = n

/-- Entry `e` under key `k` of node `n` points to a node of the tree. -/
def Link (tgt : E → N) (σ : N → K → Option E) (root : N) (depth : Nat) (scope : K → Prop)
    (ks : List K) (n : N) (k : K) (e : E) : Prop :=
  ks.length + 1 < depth ∧ Scoped scope (ks ++ [k]) ∧ Node tgt σ root depth scope ks n ∧
    σ n k = some e

/-- The nodes form a tree. -/
structure Tree (tgt : E → N) (σ : N → K → Option E) (root : N) (depth : Nat)
    (scope : K → Prop) : Prop where
  /-- No entry points back to the root. -/
  root_free : ∀ ks n k e, Link tgt σ root depth scope ks n k e → tgt e ≠ root
  /-- No table is pointed to by two entries. -/
  link_unique : ∀ ks n k e ks' n' k' e', Link tgt σ root depth scope ks n k e →
    Link tgt σ root depth scope ks' n' k' e' → tgt e = tgt e' → n = n' ∧ k = k'

theorem node_root (h : 0 < depth) : Node tgt σ root depth scope [] root :=
  ⟨h, trivial, [], rfl, rfl⟩

theorem Node.eq_root {n : N} (h : Node tgt σ root depth scope [] n) : n = root := by
  obtain ⟨_, _, es, htr, hend⟩ := h
  obtain rfl : es = [] := by simpa using htr.symm
  exact hend.symm

/-- Under an empty root table there is nothing. -/
theorem Node.of_empty (hempty : ∀ k, scope k → σ root k = none) {ks : List K} {n : N}
    (h : Node tgt σ root depth scope ks n) : ks = [] ∧ n = root := by
  cases ks with
  | nil => exact ⟨rfl, h.eq_root⟩
  | cons k ks =>
    obtain ⟨_, hs, es, htr, _⟩ := h
    rw [trail_cons, hempty k hs] at htr
    exact absurd htr (by simp)

theorem not_link_of_empty (hempty : ∀ k, scope k → σ root k = none) {ks : List K} {n : N} {k : K}
    {e : E} : ¬ Link tgt σ root depth scope ks n k e := by
  rintro ⟨_, hs, hn, he⟩
  obtain ⟨rfl, rfl⟩ := hn.of_empty hempty
  rw [hempty k hs] at he
  exact absurd he (by simp)

theorem tree_of_empty (hempty : ∀ k, scope k → σ root k = none) :
    Tree tgt σ root depth scope where
  root_free _ _ _ _ h := absurd h (not_link_of_empty hempty)
  link_unique _ _ _ _ _ _ _ _ h := absurd h (not_link_of_empty hempty)

/-- A node below the root hangs under a link of another node. -/
theorem Node.exists_link {ks : List K} {k : K} {n : N}
    (h : Node tgt σ root depth scope (ks ++ [k]) n) :
    ∃ p e, Link tgt σ root depth scope ks p k e ∧ tgt e = n := by
  obtain ⟨hlen, hsc, es, htr, hend⟩ := h
  rw [trail_concat] at htr
  obtain ⟨ps, hps, hlast⟩ := Option.bind_eq_some_iff.mp htr
  obtain ⟨e, he, rfl⟩ := Option.map_eq_some_iff.mp hlast
  rw [List.length_append, List.length_singleton] at hlen
  rw [endOf_concat] at hend
  exact ⟨_, e, ⟨hlen, hsc, ⟨by omega, scoped_of_concat hsc, ps, hps, rfl⟩, he⟩, hend⟩

/-- A path leads to one node. -/
theorem Node.end_unique {ks : List K} {n n' : N} (h : Node tgt σ root depth scope ks n)
    (h' : Node tgt σ root depth scope ks n') : n = n' := by
  obtain ⟨_, _, es, htr, rfl⟩ := h
  obtain ⟨_, _, es', htr', rfl⟩ := h'
  rw [htr] at htr'
  rw [Option.some.inj htr']

/-- There is a node along every part of the way to a node. -/
theorem Node.above {ks rest : List K} {n : N} (h : Node tgt σ root depth scope (ks ++ rest) n) :
    ∃ p, Node tgt σ root depth scope ks p := by
  induction rest using List.reverseRecOn generalizing n with
  | nil =>
    rw [List.append_nil] at h
    exact ⟨n, h⟩
  | append_singleton rest k ih =>
    rw [← List.append_assoc] at h
    obtain ⟨p, e, hl, _⟩ := h.exists_link
    exact ih hl.2.2.1

theorem Link.node {ks : List K} {n : N} {k : K} {e : E}
    (h : Link tgt σ root depth scope ks n k e) :
    Node tgt σ root depth scope (ks ++ [k]) (tgt e) := by
  obtain ⟨hlen, hsc, ⟨_, _, es, htr, hend⟩, he⟩ := h
  refine ⟨by simpa using hlen, hsc, es ++ [e], ?_, endOf_concat _ _ _ _⟩
  rw [trail_concat, htr, Option.bind_some, hend, he]
  rfl

/-- Every entry on the way to a node is a link, along a part of that way. -/
theorem links_of_trail {ks : List K} (hlen : ks.length < depth) (hs : Scoped scope ks) :
    ∀ {es : List E}, trail tgt σ root ks = some es →
      ∀ e ∈ es, ∃ qs n k, Link tgt σ root depth scope qs n k e ∧ qs ++ [k] <+: ks := by
  induction ks using List.reverseRecOn with
  | nil =>
    intro es htr e he
    obtain rfl : es = [] := by simpa using htr.symm
    exact absurd he (by simp)
  | append_singleton ps k ih =>
    intro es htr e he
    rw [List.length_append, List.length_singleton] at hlen
    have hps := scoped_of_concat hs
    rw [trail_concat] at htr
    obtain ⟨ds, hds, hlast⟩ := Option.bind_eq_some_iff.mp htr
    obtain ⟨d, hd, rfl⟩ := Option.map_eq_some_iff.mp hlast
    rcases List.mem_append.mp he with he | he
    · obtain ⟨qs, n, j, hl, hpre⟩ := ih (by omega) hps hds e he
      exact ⟨qs, n, j, hl, hpre.trans (List.prefix_append _ _)⟩
    · obtain rfl := List.mem_singleton.mp he
      exact ⟨ps, _, k, ⟨hlen, hs, ⟨by omega, hps, ds, hds, rfl⟩, hd⟩, List.prefix_rfl⟩

/-- A part of a way meets a part of its entries. -/
theorem trail_of_prefix {ks qs : List K} (h : qs <+: ks) :
    ∀ {es : List E}, trail tgt σ root ks = some es →
      ∃ ds, trail tgt σ root qs = some ds ∧ ds <+: es := by
  obtain ⟨js, rfl⟩ := h
  induction js using List.reverseRecOn with
  | nil =>
    intro es htr
    rw [List.append_nil] at htr
    exact ⟨es, htr, List.prefix_rfl⟩
  | append_singleton js j ih =>
    intro es htr
    rw [← List.append_assoc, trail_concat] at htr
    obtain ⟨ds, hds, hlast⟩ := Option.bind_eq_some_iff.mp htr
    obtain ⟨d, _, rfl⟩ := Option.map_eq_some_iff.mp hlast
    obtain ⟨cs, hcs, hpre⟩ := ih hds
    exact ⟨cs, hcs, hpre.trans (List.prefix_append _ _)⟩

/-- Every step of a way is a link, and its entry one of those met. -/
theorem link_of_prefix {ks qs : List K} {k : K} (hlen : ks.length < depth) (hs : Scoped scope ks)
    (h : qs ++ [k] <+: ks) {es : List E} (htr : trail tgt σ root ks = some es) :
    ∃ n e, Link tgt σ root depth scope qs n k e ∧ e ∈ es := by
  obtain ⟨ds, hds, hpre⟩ := trail_of_prefix h htr
  have hqs : Scoped scope (qs ++ [k]) := by
    obtain ⟨js, rfl⟩ := h
    cases qs with
    | nil => exact hs
    | cons j qs => exact hs
  have hq := h.length_le
  rw [List.length_append, List.length_singleton] at hq
  rw [trail_concat] at hds
  obtain ⟨cs, hcs, hlast⟩ := Option.bind_eq_some_iff.mp hds
  obtain ⟨e, he, rfl⟩ := Option.map_eq_some_iff.mp hlast
  refine ⟨_, e, ⟨by omega, hqs, ⟨by omega, scoped_of_concat hqs, cs, hcs, rfl⟩, he⟩, ?_⟩
  exact hpre.subset (by simp)

/-- **A node is reached along one path only.** -/
theorem Tree.path_unique (hT : Tree tgt σ root depth scope) {n : N} :
    ∀ {ks ks' : List K}, Node tgt σ root depth scope ks n →
      Node tgt σ root depth scope ks' n → ks = ks' := by
  -- the root is pointed to by nothing, so induction on the last key peels both paths together
  intro ks
  induction ks using List.reverseRecOn generalizing n with
  | nil =>
    rintro ks' ⟨_, _, es, htr, hend⟩ h'
    obtain rfl : es = [] := by simpa using htr.symm
    cases ks' using List.reverseRecOn with
    | nil => rfl
    | append_singleton js j =>
      obtain ⟨p, e, hl, he⟩ := h'.exists_link
      exact absurd (he.trans hend.symm) (hT.root_free _ _ _ _ hl)
  | append_singleton ps k ih =>
    intro ks' h h'
    obtain ⟨p, e, hl, he⟩ := h.exists_link
    cases ks' using List.reverseRecOn with
    | nil =>
      obtain ⟨_, _, es', htr', hend'⟩ := h'
      obtain rfl : es' = [] := by simpa using htr'.symm
      exact absurd (he.trans hend'.symm) (hT.root_free _ _ _ _ hl)
    | append_singleton js j =>
      obtain ⟨p', e', hl', he'⟩ := h'.exists_link
      obtain ⟨rfl, rfl⟩ := hT.link_unique _ _ _ _ _ _ _ _ hl hl' (he.trans he'.symm)
      rw [ih hl.2.2.1 hl'.2.2.1]

/-- Where the last step of a path leads, read off the entries before it. -/
theorem trail_concat_of_some {ks : List K} {es : List E} (j : K)
    (htr : trail tgt σ root ks = some es) :
    trail tgt σ root (ks ++ [j]) = (σ (endOf tgt root es) j).map fun e => es ++ [e] := by
  rw [trail_concat, htr, Option.bind_some]

theorem trail_concat_of_none {ks : List K} (j : K) (htr : trail tgt σ root ks = none) :
    trail tgt σ root (ks ++ [j]) = none := by
  rw [trail_concat, htr]
  rfl

/-- What a store with fewer entries has, the store has. -/
theorem trail_mono (hle : ∀ n k e, σ' n k = some e → σ n k = some e) {ks : List K} :
    ∀ {es : List E}, trail tgt σ' root ks = some es → trail tgt σ root ks = some es := by
  induction ks using List.reverseRecOn with
  | nil => exact fun h => h
  | append_singleton ps j ih =>
    intro es htr
    rw [trail_concat] at htr
    obtain ⟨ds, hds, hlast⟩ := Option.bind_eq_some_iff.mp htr
    obtain ⟨e, he, rfl⟩ := Option.map_eq_some_iff.mp hlast
    rw [trail_concat_of_some j (ih hds), hle _ _ _ he]
    rfl

theorem Node.mono (hle : ∀ n k e, σ' n k = some e → σ n k = some e) {ks : List K} {n : N}
    (h : Node tgt σ' root depth scope ks n) : Node tgt σ root depth scope ks n := by
  obtain ⟨hlen, hs, es, htr, hend⟩ := h
  exact ⟨hlen, hs, es, trail_mono hle htr, hend⟩

theorem Link.mono (hle : ∀ n k e, σ' n k = some e → σ n k = some e) {ks : List K} {n : N} {k : K}
    {e : E} (h : Link tgt σ' root depth scope ks n k e) : Link tgt σ root depth scope ks n k e := by
  obtain ⟨hlen, hs, hn, he⟩ := h
  exact ⟨hlen, hs, hn.mono hle, hle _ _ _ he⟩

/-- A tree with entries taken out is a tree. -/
theorem Tree.of_fewer (hle : ∀ n k e, σ' n k = some e → σ n k = some e)
    (h : Tree tgt σ root depth scope) : Tree tgt σ' root depth scope where
  root_free _ _ _ _ hl := h.root_free _ _ _ _ (hl.mono hle)
  link_unique _ _ _ _ _ _ _ _ hl hl' := h.link_unique _ _ _ _ _ _ _ _ (hl.mono hle) (hl'.mono hle)

/-! ### Stores that agree on the tree -/

section Agree

variable (hag : ∀ qs n, Node tgt σ root depth scope qs n → ∀ j, σ' n j = σ n j)

include hag

/-- A store that agrees on the nodes has the same trails. -/
theorem trail_congr {qs : List K} (hq : qs.length ≤ depth) (hs : Scoped scope qs) :
    trail tgt σ' root qs = trail tgt σ root qs := by
  induction qs using List.reverseRecOn with
  | nil => rfl
  | append_singleton ps j ih =>
    rw [List.length_append, List.length_singleton] at hq
    have hps := scoped_of_concat hs
    have ih' := ih (by omega) hps
    cases htr : trail tgt σ root ps with
    | none => rw [trail_concat_of_none j htr, trail_concat_of_none j (ih'.trans htr)]
    | some es =>
      rw [trail_concat_of_some j htr, trail_concat_of_some j (ih'.trans htr),
        hag ps _ ⟨by omega, hps, es, htr, rfl⟩ j]

theorem node_congr {qs : List K} {n : N} :
    Node tgt σ' root depth scope qs n ↔ Node tgt σ root depth scope qs n := by
  unfold Node
  refine and_congr_right fun hl => and_congr_right fun hs => ?_
  rw [trail_congr hag (Nat.le_of_lt hl) hs]

theorem link_congr {qs : List K} {n : N} {j : K} {d : E} :
    Link tgt σ' root depth scope qs n j d ↔ Link tgt σ root depth scope qs n j d := by
  unfold Link
  rw [node_congr hag]
  refine and_congr_right fun _ => and_congr_right fun _ => and_congr_right fun hn => ?_
  rw [hag qs n hn j]

theorem tree_congr (hT : Tree tgt σ root depth scope) : Tree tgt σ' root depth scope where
  root_free qs n j d h := hT.root_free qs n j d ((link_congr hag).mp h)
  link_unique qs n j d qs' n' j' d' h h' :=
    hT.link_unique qs n j d qs' n' j' d' ((link_congr hag).mp h) ((link_congr hag).mp h')

end Agree

/-! ### Writing an entry of a bottom node -/

/-- `σ'` is `σ` with entry `e` written under key `k` of the bottom node `t`, reached along `ks`. -/
structure LeafWrite (tgt : E → N) (σ σ' : N → K → Option E) (root : N) (depth : Nat)
    (scope : K → Prop) (ks : List K) (t : N) (k : K) (e : E) : Prop where
  node : Node tgt σ root depth scope ks t
  bottom : ks.length + 1 = depth
  written : σ' t k = some e
  kept : ∀ qs n, Node tgt σ root depth scope qs n → ∀ j, ¬ (n = t ∧ j = k) → σ' n j = σ n j

section LeafWrite

variable {t : N} {k : K} {e : E} {ks : List K}

theorem LeafWrite.trail_short (hw : LeafWrite tgt σ σ' root depth scope ks t k e)
    (hT : Tree tgt σ root depth scope) {qs : List K} (hq : qs.length < depth)
    (hs : Scoped scope qs) : trail tgt σ' root qs = trail tgt σ root qs := by
  induction qs using List.reverseRecOn with
  | nil => rfl
  | append_singleton ps j ih =>
    rw [List.length_append, List.length_singleton] at hq
    have hps := scoped_of_concat hs
    have ih' := ih (by omega) hps
    cases htr : trail tgt σ root ps with
    | none =>
      rw [trail_concat_of_none j htr, trail_concat_of_none j (ih'.trans htr)]
    | some es =>
      have hn : Node tgt σ root depth scope ps (endOf tgt root es) :=
        ⟨by omega, hps, es, htr, rfl⟩
      rw [trail_concat_of_some j htr, trail_concat_of_some j (ih'.trans htr), hw.kept ps _ hn j]
      -- the written table lies deeper than any inner step
      rintro ⟨hnt, -⟩
      have := hT.path_unique (hnt ▸ hn) hw.node
      have := hw.bottom
      subst ps
      omega

/-- The path that ends in the written entry meets it. -/
theorem LeafWrite.trail_written (hw : LeafWrite tgt σ σ' root depth scope ks t k e)
    (hT : Tree tgt σ root depth scope) :
    trail tgt σ' root (ks ++ [k]) = (trail tgt σ root ks).map (· ++ [e]) := by
  obtain ⟨hlen, hsc, es, htr, hend⟩ := hw.node
  rw [trail_concat_of_some k ((hw.trail_short hT hlen hsc).trans htr), htr, hend, hw.written]
  rfl

/-- **Writing one entry of a bottom node changes one translation.** -/
theorem LeafWrite.trail_other (hw : LeafWrite tgt σ σ' root depth scope ks t k e)
    (hT : Tree tgt σ root depth scope) {qs : List K} (hq : qs.length = depth)
    (hs : Scoped scope qs) (hne : qs ≠ ks ++ [k]) :
    trail tgt σ' root qs = trail tgt σ root qs := by
  cases qs using List.reverseRecOn with
  | nil => rfl
  | append_singleton ps j =>
    rw [List.length_append, List.length_singleton] at hq
    have hps := scoped_of_concat hs
    have hsh : trail tgt σ' root ps = trail tgt σ root ps := hw.trail_short hT (by omega) hps
    cases htr : trail tgt σ root ps with
    | none => rw [trail_concat_of_none j htr, trail_concat_of_none j (hsh.trans htr)]
    | some es =>
      have hn : Node tgt σ root depth scope ps (endOf tgt root es) :=
        ⟨by omega, hps, es, htr, rfl⟩
      rw [trail_concat_of_some j htr, trail_concat_of_some j (hsh.trans htr), hw.kept ps _ hn j]
      rintro ⟨hnt, rfl⟩
      have hps : ps = ks := hT.path_unique (hnt ▸ hn) hw.node
      exact hne (by rw [hps])

theorem LeafWrite.node_iff (hw : LeafWrite tgt σ σ' root depth scope ks t k e)
    (hT : Tree tgt σ root depth scope) {qs : List K} {n : N} :
    Node tgt σ' root depth scope qs n ↔ Node tgt σ root depth scope qs n := by
  unfold Node
  refine and_congr_right fun hl => and_congr_right fun hs => ?_
  rw [hw.trail_short hT hl hs]

theorem LeafWrite.link_iff (hw : LeafWrite tgt σ σ' root depth scope ks t k e)
    (hT : Tree tgt σ root depth scope) {qs : List K} {n : N} {j : K} {d : E} :
    Link tgt σ' root depth scope qs n j d ↔ Link tgt σ root depth scope qs n j d := by
  unfold Link
  rw [hw.node_iff hT]
  refine and_congr_right fun hl => and_congr_right fun _ => and_congr_right fun hn => ?_
  rw [hw.kept qs n hn j]
  rintro ⟨rfl, -⟩
  have := hT.path_unique hn hw.node
  have := hw.bottom
  subst qs
  omega

/-- A tree stays a tree when a bottom entry is written: its links are the same. -/
theorem LeafWrite.tree (hw : LeafWrite tgt σ σ' root depth scope ks t k e)
    (hT : Tree tgt σ root depth scope) : Tree tgt σ' root depth scope where
  root_free qs n j d h := hT.root_free qs n j d ((hw.link_iff hT).mp h)
  link_unique qs n j d qs' n' j' d' h h' :=
    hT.link_unique qs n j d qs' n' j' d' ((hw.link_iff hT).mp h) ((hw.link_iff hT).mp h')

end LeafWrite

/-! ### Hanging a fresh table under an empty entry -/

/-- `σ'` is `σ` with the empty table `f`, not a node before, hung under the empty entry `k` of the
inner node `t`, reached along `ks`. -/
structure Graft (tgt : E → N) (σ σ' : N → K → Option E) (root : N) (depth : Nat)
    (scope : K → Prop) (ks : List K) (t : N) (k : K) (e : E) (f : N) : Prop where
  node : Node tgt σ root depth scope ks t
  inner : ks.length + 1 < depth
  in_scope : Scoped scope (ks ++ [k])
  vacant : σ t k = none
  written : σ' t k = some e
  target : tgt e = f
  fresh : ∀ qs n, Node tgt σ root depth scope qs n → n ≠ f
  empty : ∀ j, σ' f j = none
  kept : ∀ qs n, Node tgt σ root depth scope qs n → ∀ j, ¬ (n = t ∧ j = k) → σ' n j = σ n j

section Graft

variable {t f : N} {k : K} {e : E} {ks : List K}

theorem Graft.trail_vacant (hg : Graft tgt σ σ' root depth scope ks t k e f) :
    trail tgt σ root (ks ++ [k]) = none := by
  obtain ⟨_, _, es, htr, hend⟩ := hg.node
  rw [trail_concat_of_some k htr, hend, hg.vacant]
  rfl

/-- The two stores agree on every path but the new table's own; the paths through it find its
entries empty, as they found the entry above it empty before. -/
theorem Graft.trail_both (hg : Graft tgt σ σ' root depth scope ks t k e f)
    (hT : Tree tgt σ root depth scope) {qs : List K} (hq : qs.length ≤ depth)
    (hs : Scoped scope qs) :
    (qs ≠ ks ++ [k] → trail tgt σ' root qs = trail tgt σ root qs) ∧
      (qs = ks ++ [k] → trail tgt σ' root qs = (trail tgt σ root ks).map (· ++ [e])) := by
  induction qs using List.reverseRecOn with
  | nil => exact ⟨fun _ => rfl, fun h => absurd h (by simp)⟩
  | append_singleton ps j ih =>
    rw [List.length_append, List.length_singleton] at hq
    have hps := scoped_of_concat hs
    obtain ⟨ihne, iheq⟩ := ih (by omega) hps
    by_cases hnew : ps = ks ++ [k]
    · -- one step past the new table
      have hne : ps ++ [j] ≠ ks ++ [k] := by
        intro h
        rw [(List.append_inj' h rfl).1] at hnew
        simpa using congrArg List.length hnew
      refine ⟨fun _ => ?_, fun h => absurd h hne⟩
      obtain ⟨_, _, es, htr, _⟩ := hg.node
      have h' : trail tgt σ' root ps = some (es ++ [e]) := by rw [iheq hnew, htr]; rfl
      have h0 : trail tgt σ root ps = none := by rw [hnew]; exact hg.trail_vacant
      rw [trail_concat_of_some j h', endOf_concat, hg.target, hg.empty, trail_concat_of_none j h0]
      rfl
    · have hsame := ihne hnew
      cases htr : trail tgt σ root ps with
      | none =>
        refine ⟨fun _ => ?_, fun h => ?_⟩
        · rw [trail_concat_of_none j htr, trail_concat_of_none j (hsame.trans htr)]
        · obtain ⟨_, _, es, hks, _⟩ := hg.node
          rw [(List.append_inj' h rfl).1, hks] at htr
          exact absurd htr (by simp)
      | some es =>
        have hn : Node tgt σ root depth scope ps (endOf tgt root es) :=
          ⟨by omega, hps, es, htr, rfl⟩
        rw [trail_concat_of_some j htr, trail_concat_of_some j (hsame.trans htr)]
        refine ⟨fun hne => ?_, fun h => ?_⟩
        · rw [hg.kept ps _ hn j]
          rintro ⟨hnt, rfl⟩
          have hps : ps = ks := hT.path_unique (hnt ▸ hn) hg.node
          exact hne (by rw [hps])
        · obtain ⟨rfl, hjk⟩ := List.append_inj' h rfl
          obtain rfl := List.singleton_inj.mp hjk
          obtain ⟨_, _, es', htr', hend'⟩ := hg.node
          obtain rfl := Option.some.inj (htr.symm.trans htr')
          rw [hend', hg.written, htr]
          rfl

/-- **Hanging a fresh empty table under an empty entry changes no translation.** -/
theorem Graft.trail_full (hg : Graft tgt σ σ' root depth scope ks t k e f)
    (hT : Tree tgt σ root depth scope) {qs : List K} (hq : qs.length = depth)
    (hs : Scoped scope qs) : trail tgt σ' root qs = trail tgt σ root qs := by
  refine (hg.trail_both hT (Nat.le_of_eq hq) hs).1 ?_
  rintro rfl
  have := hg.inner
  rw [List.length_append, List.length_singleton] at hq
  omega

theorem Graft.node_iff (hg : Graft tgt σ σ' root depth scope ks t k e f)
    (hT : Tree tgt σ root depth scope) {qs : List K} {n : N} :
    Node tgt σ' root depth scope qs n ↔
      Node tgt σ root depth scope qs n ∨ (qs = ks ++ [k] ∧ n = f) := by
  constructor
  · rintro ⟨hl, hs, es, htr, he⟩
    have hb := hg.trail_both hT (Nat.le_of_lt hl) hs
    by_cases hq : qs = ks ++ [k]
    · rw [hb.2 hq] at htr
      obtain ⟨es', _, rfl⟩ := Option.map_eq_some_iff.mp htr
      rw [endOf_concat, hg.target] at he
      exact Or.inr ⟨hq, he.symm⟩
    · exact Or.inl ⟨hl, hs, es, (hb.1 hq) ▸ htr, he⟩
  · rintro (⟨hl, hs, es, htr, he⟩ | ⟨rfl, rfl⟩)
    · have hb := hg.trail_both hT (Nat.le_of_lt hl) hs
      refine ⟨hl, hs, es, ?_, he⟩
      rw [hb.1 ?_]
      · exact htr
      · rintro rfl
        rw [hg.trail_vacant] at htr
        exact absurd htr (by simp)
    · have hl : (ks ++ [k]).length < depth := by simpa using hg.inner
      obtain ⟨_, _, es, htr, _⟩ := hg.node
      refine ⟨hl, hg.in_scope, es ++ [e], ?_, ?_⟩
      · rw [(hg.trail_both hT (Nat.le_of_lt hl) hg.in_scope).2 rfl, htr]
        rfl
      · rw [endOf_concat, hg.target]

theorem Graft.link_cases (hg : Graft tgt σ σ' root depth scope ks t k e f)
    (hT : Tree tgt σ root depth scope) {qs : List K} {n : N} {j : K} {d : E}
    (h : Link tgt σ' root depth scope qs n j d) :
    Link tgt σ root depth scope qs n j d ∨ (n = t ∧ j = k ∧ d = e) := by
  obtain ⟨hl, hs, hn, hd⟩ := h
  rcases (hg.node_iff hT).mp hn with hn | ⟨_, rfl⟩
  · by_cases hat : n = t ∧ j = k
    · obtain ⟨rfl, rfl⟩ := hat
      rw [hg.written] at hd
      exact Or.inr ⟨rfl, rfl, (Option.some.inj hd).symm⟩
    · rw [hg.kept qs n hn j hat] at hd
      exact Or.inl ⟨hl, hs, hn, hd⟩
  · rw [hg.empty] at hd
    exact absurd hd (by simp)

/-- The new table is pointed to by the new entry only, so the nodes form a tree again. -/
theorem Graft.tree (hg : Graft tgt σ σ' root depth scope ks t k e f)
    (hT : Tree tgt σ root depth scope) : Tree tgt σ' root depth scope where
  root_free qs n j d h := by
    rcases hg.link_cases hT h with h | ⟨_, _, rfl⟩
    · exact hT.root_free qs n j d h
    · rw [hg.target]
      exact (hg.fresh [] root (node_root (by have := hg.inner; omega))).symm
  link_unique qs n j d qs' n' j' d' h h' heq := by
    rcases hg.link_cases hT h with h | ⟨rfl, rfl, rfl⟩ <;>
      rcases hg.link_cases hT h' with h' | ⟨rfl, rfl, rfl⟩
    · exact hT.link_unique qs n j d qs' n' j' d' h h' heq
    · exact absurd (heq.trans hg.target) (hg.fresh _ _ h.node)
    · exact absurd (heq.symm.trans hg.target) (hg.fresh _ _ h'.node)
    · exact ⟨rfl, rfl⟩

end Graft

/-! ### Growing a tree -/

/-- `σ'` is `σ` with nodes added under empty entries: the new nodes are among `new`, the new links
among `label`, and no translation moved. -/
structure Grows (tgt : E → N) (σ σ' : N → K → Option E) (root : N) (depth : Nat)
    (scope : K → Prop) (new : N → Prop) (label : E → Prop) : Prop where
  tree : Tree tgt σ' root depth scope
  short : ∀ qs es, qs.length < depth → Scoped scope qs → trail tgt σ root qs = some es →
    trail tgt σ' root qs = some es
  full : ∀ qs, qs.length = depth → Scoped scope qs → trail tgt σ' root qs = trail tgt σ root qs
  node_new : ∀ qs n, Node tgt σ' root depth scope qs n → Node tgt σ root depth scope qs n ∨ new n
  link_new : ∀ qs n j d, Link tgt σ' root depth scope qs n j d →
    Link tgt σ root depth scope qs n j d ∨ (label d ∧ new (tgt d))

section Grows

variable {σ'' : N → K → Option E} {new new' : N → Prop} {label : E → Prop}

theorem Grows.refl (hT : Tree tgt σ root depth scope) :
    Grows tgt σ σ root depth scope new label where
  tree := hT
  short _ _ _ _ h := h
  full _ _ _ := rfl
  node_new _ _ h := Or.inl h
  link_new _ _ _ _ h := Or.inl h

/-- Growing on: what is new to the grown tree was new to the first one. -/
theorem Grows.trans (h : Grows tgt σ σ' root depth scope new label)
    (h' : Grows tgt σ' σ'' root depth scope new' label) (hnew : ∀ n, new' n → new n) :
    Grows tgt σ σ'' root depth scope new label where
  tree := h'.tree
  short qs es hq hs htr := h'.short qs es hq hs (h.short qs es hq hs htr)
  full qs hq hs := (h'.full qs hq hs).trans (h.full qs hq hs)
  node_new qs n hn := by
    rcases h'.node_new qs n hn with hn | hn
    · exact h.node_new qs n hn
    · exact Or.inr (hnew n hn)
  link_new qs n j d hl := by
    rcases h'.link_new qs n j d hl with hl | ⟨hd, hn⟩
    · exact h.link_new qs n j d hl
    · exact Or.inr ⟨hd, hnew _ hn⟩

theorem Grows.node (h : Grows tgt σ σ' root depth scope new label) {qs : List K} {n : N}
    (hn : Node tgt σ root depth scope qs n) : Node tgt σ' root depth scope qs n := by
  obtain ⟨hl, hs, es, htr, hend⟩ := hn
  exact ⟨hl, hs, es, h.short qs es hl hs htr, hend⟩

theorem Grows.link (h : Grows tgt σ σ' root depth scope new label) {qs : List K} {n : N} {j : K}
    {d : E} (hl : Link tgt σ root depth scope qs n j d) :
    Link tgt σ' root depth scope qs n j d := by
  obtain ⟨hlen, hs, ⟨hq, hsq, es, htr, hend⟩, hd⟩ := hl
  have hnode : Node tgt σ root depth scope qs n := ⟨hq, hsq, es, htr, hend⟩
  have htr' := h.short qs es hq hsq htr
  -- the link is the last step of the path to the table under it
  have hlast := h.short (qs ++ [j]) (es ++ [d]) (by simpa using hlen) hs
    (by rw [trail_concat_of_some j htr, hend, hd]; rfl)
  rw [trail_concat_of_some j htr', hend] at hlast
  obtain ⟨d', hd', heq⟩ := Option.map_eq_some_iff.mp hlast
  obtain rfl : d' = d := by simpa using heq
  exact ⟨hlen, hs, h.node hnode, hd'⟩

/-- **A graft grows the tree** by its one table and its one link. -/
theorem Graft.grows {t f : N} {k : K} {e : E} {ks : List K}
    (hg : Graft tgt σ σ' root depth scope ks t k e f) (hT : Tree tgt σ root depth scope)
    (hnew : new f) (hlabel : label e) : Grows tgt σ σ' root depth scope new label where
  tree := hg.tree hT
  short qs es hq hs htr := by
    rw [(hg.trail_both hT (Nat.le_of_lt hq) hs).1 ?_]
    · exact htr
    · rintro rfl
      rw [hg.trail_vacant] at htr
      exact absurd htr (by simp)
  full _ hq hs := hg.trail_full hT hq hs
  node_new _ _ hn := by
    rcases (hg.node_iff hT).mp hn with hn | ⟨_, rfl⟩
    · exact Or.inl hn
    · exact Or.inr hnew
  link_new _ _ _ _ hl := by
    rcases hg.link_cases hT hl with hl | ⟨_, _, rfl⟩
    · exact Or.inl hl
    · exact Or.inr ⟨hlabel, hg.target.symm ▸ hnew⟩

end Grows

end Tree

end Harmony.Lib.Radix
