import Mathlib.Data.Finset.Card
import Mathlib.Data.List.Induction
import Mathlib.Data.List.Perm.Basic
import Mathlib.Logic.Nontrivial.Basic

/-!
# Read-modify-writes of one cell that are two steps each

Every core takes a copy of the cell, applies its function to the copy and stores the result. The
copy and the store are atomic, the pair is not, and the cores' steps interleave freely.

* `run_slot_serial`: if no store of another core falls between a core's copy and its store, the
  cell ends with the functions applied one after another, in the order of the stores.
* `exists_lost`: if one does, some core's function is missing from the result. The witness is the
  run in which each core adds its own name to a set: the set ends too small.
* `serializable_iff`: so an interleaving is right for all functions exactly when no store overlaps.
-/

namespace Harmony.Lib.Rmw

/-- The two steps of a core. -/
inductive Step (C : Type) where
  | get (core : C)
  | replace (core : C)
  deriving DecidableEq, Repr

/-- The core that takes the step. -/
def Step.core {C : Type} : Step C → C
  | .get c => c
  | .replace c => c

/-- The cell, and the copy each core has taken of it. -/
structure Cell (C S : Type) where
  slot : S
  copy : C → Option S

/-- A cell of which nobody has taken a copy. -/
def Cell.fresh {C S : Type} (init : S) : Cell C S := ⟨init, fun _ => none⟩

section Runs

variable {C S : Type} [DecidableEq C]

/-- One step. A core stores its function of the copy it took; without a copy it has nothing to
store. -/
def Cell.step (f : C → S → S) (cell : Cell C S) : Step C → Cell C S
  | .get c => { cell with copy := Function.update cell.copy c (some cell.slot) }
  | .replace c =>
    match cell.copy c with
    | some v => { cell with slot := f c v }
    | none => cell

/-- The steps of a schedule, one after another. -/
def run (f : C → S → S) (cell : Cell C S) (steps : List (Step C)) : Cell C S :=
  steps.foldl (Cell.step f) cell

/-- The schedule holds one copy and then one store of each of the cores, and nothing else. -/
def Interleaves (cores : List C) (sched : List (Step C)) : Prop :=
  ∀ c, sched.filter (fun t => t.core = c) = if c ∈ cores then [.get c, .replace c] else []

/-- Some core's store falls between another core's copy and its store. -/
def Overlaps (sched : List (Step C)) : Prop :=
  ∃ i j, i ≠ j ∧ List.Sublist [.get i, .replace j, .replace i] sched

/-- The cores in the order of their stores. -/
def stores (steps : List (Step C)) : List C :=
  steps.filterMap fun
    | .get _ => none
    | .replace c => some c

/-- The functions of the cores in `order`, one after another. -/
def serial (f : C → S → S) (init : S) (order : List C) : S := order.foldl (fun s c => f c s) init

variable {f : C → S → S} {cell : Cell C S} {c : C}

theorem run_append (p q : List (Step C)) : run f cell (p ++ q) = run f (run f cell p) q :=
  List.foldl_append

theorem run_cons (t : Step C) (ts : List (Step C)) :
    run f cell (t :: ts) = run f (cell.step f t) ts := rfl

theorem run_concat (p : List (Step C)) (t : Step C) :
    run f cell (p ++ [t]) = (run f cell p).step f t := by
  rw [run_append]
  rfl

/-- A core's copy stays until it takes another. -/
theorem run_copy_of_no_get {ts : List (Step C)} (h : .get c ∉ ts) :
    (run f cell ts).copy c = cell.copy c := by
  induction ts using List.reverseRecOn with
  | nil => rfl
  | append_singleton ts t ih =>
    rw [run_concat, ← ih (fun hmem => h (List.mem_append_left _ hmem))]
    cases t with
    | get d =>
      have hcd : c ≠ d := by
        rintro rfl
        exact h (by simp)
      simp [Cell.step, Function.update_of_ne hcd]
    | replace d =>
      simp only [Cell.step]
      split <;> rfl

/-- Only stores change the cell. -/
theorem run_slot_of_no_replace {ts : List (Step C)} (h : ∀ d, .replace d ∉ ts) :
    (run f cell ts).slot = cell.slot := by
  induction ts using List.reverseRecOn with
  | nil => rfl
  | append_singleton ts t ih =>
    rw [run_concat, ← ih (fun d hmem => h d (List.mem_append_left _ hmem))]
    cases t with
    | get d => rfl
    | replace d => exact absurd (List.mem_append_right ts (List.mem_singleton_self _)) (h d)

end Runs

section Serial

variable {C S : Type} [DecidableEq C] {cores : List C} {sched : List (Step C)}

/-- Before its store a core has taken one step, its copy. -/
theorem Interleaves.filter_before (h : Interleaves cores sched) {p rest : List (Step C)} {c : C}
    (hsched : sched = p ++ .replace c :: rest) : p.filter (fun t => t.core = c) = [.get c] := by
  have hfilter := h c
  rw [hsched, List.filter_append, List.filter_cons_of_pos (by simp [Step.core])] at hfilter
  split at hfilter
  · match hp : p.filter (fun t => t.core = c) with
    | [] => simp [hp] at hfilter
    | [t] =>
      rw [hp] at hfilter
      obtain ⟨rfl, _⟩ : t = .get c ∧ _ := by simpa using hfilter
      exact hp
    | t :: u :: ts => simp [hp] at hfilter
  · simp at hfilter

theorem Interleaves.get_mem (h : Interleaves cores sched) {p rest : List (Step C)} {c : C}
    (hsched : sched = p ++ .replace c :: rest) : Step.get c ∈ p := by
  have hin : Step.get c ∈ p.filter (fun t => t.core = c) := by simp [h.filter_before hsched]
  exact List.mem_of_mem_filter hin

/-- Between its copy and its store a core takes no step. -/
theorem Interleaves.between (h : Interleaves cores sched) {p q rest : List (Step C)} {c : C}
    (hsched : sched = p ++ .get c :: q ++ .replace c :: rest) : ∀ t ∈ q, t.core ≠ c := by
  have hfilter := h.filter_before hsched
  rw [List.filter_append, List.filter_cons_of_pos (by simp [Step.core])] at hfilter
  have hnil : q.filter (fun t => t.core = c) = [] := by
    have hlen := congrArg List.length hfilter
    simp only [List.length_append, List.length_cons, List.length_nil] at hlen
    exact List.length_eq_zero_iff.mp (by omega)
  intro t ht htc
  exact List.not_mem_nil (hnil ▸ List.mem_filter.mpr ⟨ht, by simpa using htc⟩)

/-- So what it stores is its function of the slot as it was at the copy. -/
theorem Interleaves.copy_at_replace (h : Interleaves cores sched) {p q rest : List (Step C)} {c : C}
    (hsched : sched = p ++ .get c :: q ++ .replace c :: rest) (f : C → S → S) (cell : Cell C S) :
    (run f cell (p ++ .get c :: q)).copy c = some (run f cell p).slot := by
  rw [run_append, run_cons, run_copy_of_no_get fun hmem => h.between hsched _ hmem rfl]
  simp [Cell.step]

/-- Every core stores once. -/
theorem Interleaves.stores_perm (h : Interleaves cores sched) (hnodup : cores.Nodup) :
    (stores sched).Perm cores := by
  rw [List.perm_iff_count]
  intro c
  have hstores : (stores sched).count c = sched.count (.replace c) := by
    unfold stores
    rw [List.count, List.countP_filterMap, List.count]
    refine List.countP_congr fun t _ => ?_
    cases t <;> simp
  rw [hstores, ← List.count_filter (p := fun t => t.core = c) (by simp [Step.core]), h c]
  split
  · rename_i hc
    rw [List.count_eq_one_of_mem hnodup hc]
    simp
  · rename_i hc
    rw [List.count_eq_zero_of_not_mem hc]
    simp

/-- Without an overlap the stores apply the functions one after another. -/
theorem run_slot_serial (h : Interleaves cores sched) (hno : ¬ Overlaps sched) (f : C → S → S)
    (init : S) {p rest : List (Step C)} (hsched : sched = p ++ rest) :
    (run f (.fresh init) p).slot = serial f init (stores p) := by
  induction p using List.reverseRecOn generalizing rest with
  | nil => rfl
  | append_singleton p t ih =>
    rw [List.append_assoc, List.singleton_append] at hsched
    have hslot := ih hsched
    rw [run_concat]
    cases t with
    | get c =>
      have hstores : stores (p ++ [.get c]) = stores p := by simp [stores]
      rw [hstores]
      exact hslot
    | replace c =>
      obtain ⟨p₁, p₂, rfl⟩ := List.append_of_mem (h.get_mem hsched)
      have hcopy := h.copy_at_replace hsched f (.fresh init)
      -- nobody else has stored since the copy, or the stores would overlap
      have hquiet : ∀ d, Step.replace d ∉ p₂ := by
        intro d hd
        refine hno ⟨c, d, fun hcd => h.between hsched _ hd hcd.symm, ?_⟩
        rw [hsched, List.append_assoc]
        refine List.Sublist.trans ?_ (List.sublist_append_right p₁ _)
        refine List.Sublist.cons_cons _ ?_
        exact (List.singleton_sublist.mpr hd).append
          (List.Sublist.cons_cons _ (List.nil_sublist rest))
      have hsame : (run f (.fresh init) (p₁ ++ .get c :: p₂)).slot =
          (run f (.fresh init) p₁).slot := by
        rw [run_append, run_cons, run_slot_of_no_replace hquiet]
        rfl
      have hstores : stores (p₁ ++ .get c :: p₂ ++ [.replace c]) =
          stores (p₁ ++ .get c :: p₂) ++ [c] := by
        simp [stores]
      rw [hstores, serial, List.foldl_append, Cell.step, hcopy]
      rw [hsame] at hslot
      rw [hslot]
      rfl

end Serial

section Lost

variable {C S T : Type} [DecidableEq C]

/-- The cell with `g` applied to everything it holds. -/
def Cell.map (g : S → T) (cell : Cell C S) : Cell C T :=
  ⟨g cell.slot, fun c => (cell.copy c).map g⟩

/-- A map that commutes with the cores' functions commutes with runs. -/
theorem run_map {g : S → T} {f : C → S → S} {f' : C → T → T}
    (h : ∀ c s, f' c (g s) = g (f c s)) (cell : Cell C S) (ts : List (Step C)) :
    run f' (cell.map g) ts = (run f cell ts).map g := by
  induction ts generalizing cell with
  | nil => rfl
  | cons t ts ih =>
    have hstep : (cell.map g).step f' t = (cell.step f t).map g := by
      cases t with
      | get c =>
        simp only [Cell.step, Cell.map]
        congr 1
        funext d
        by_cases hd : d = c
        · subst hd
          simp
        · simp [Function.update_of_ne hd]
      | replace c =>
        simp only [Cell.step, Cell.map]
        cases cell.copy c with
        | none => rfl
        | some v => simp [h]
    rw [run_cons, run_cons, hstep, ih]

/-- Each core adds its own name. -/
def sign (c : C) (names : Finset C) : Finset C := insert c names

/-- After `r` stores no set has more than `r - d` names. -/
def Short (d r : Nat) (cell : Cell C (Finset C)) : Prop :=
  cell.slot.card + d ≤ r ∧ ∀ c names, cell.copy c = some names → names.card + d ≤ r

/-- A step adds one name at most, and none unless it stores. -/
theorem Short.step {d r : Nat} {cell : Cell C (Finset C)} (h : Short d r cell) (t : Step C) :
    Short d (r + (stores [t]).length) (cell.step sign t) := by
  cases t with
  | get c =>
    refine ⟨h.1, fun b names hb => ?_⟩
    by_cases hbc : b = c
    · subst hbc
      obtain rfl : cell.slot = names := by simpa [Cell.step] using hb
      exact h.1
    · exact h.2 b names (by simpa [Cell.step, Function.update_of_ne hbc] using hb)
  | replace c =>
    have hcount : (stores [Step.replace c]).length = 1 := rfl
    rw [hcount]
    simp only [Cell.step]
    cases hc : cell.copy c with
    | none => exact ⟨Nat.le_succ_of_le h.1, fun b names hb => Nat.le_succ_of_le (h.2 b names hb)⟩
    | some names =>
      refine ⟨?_, fun b names hb => Nat.le_succ_of_le (h.2 b names hb)⟩
      have hcard := Finset.card_insert_le c names
      have hnames := h.2 c names hc
      simp only [sign]
      omega

theorem Short.run {d r : Nat} {cell : Cell C (Finset C)} (h : Short d r cell) (ts : List (Step C)) :
    Short d (r + (stores ts).length) (run sign cell ts) := by
  induction ts generalizing cell r with
  | nil => exact h
  | cons t ts ih =>
    have hcount : r + (stores (t :: ts)).length = r + (stores [t]).length + (stores ts).length := by
      cases t <;> simp [stores]
      omega
    rw [hcount, run_cons]
    exact ih (h.step t)

variable {cores : List C} {sched : List (Step C)}

/-- An overlap leaves the set of names short by one: the later store is of a copy that was taken
before the store it overlaps. -/
theorem short_of_overlaps (h : Interleaves cores sched) (ho : Overlaps sched) :
    Short 1 (stores sched).length (run sign (.fresh ∅) sched) := by
  obtain ⟨i, j, hij, hsub⟩ := ho
  obtain ⟨front, back, hsched, hget, hsub⟩ := List.cons_sublist_iff.mp hsub
  obtain ⟨mid, back, rfl, hrepl, hsub⟩ := List.cons_sublist_iff.mp hsub
  obtain ⟨p, q, rfl⟩ := List.append_of_mem hget
  obtain ⟨w, z, rfl⟩ := List.append_of_mem (List.singleton_sublist.mp hsub)
  replace hsched : sched = p ++ .get i :: (q ++ mid ++ w) ++ .replace i :: z := by
    rw [hsched]
    simp
  -- the copy has at most one name per store before it, and there is a store of `j` after it
  have hcopy := h.copy_at_replace hsched sign (.fresh ∅)
  have hzero : Short 0 0 (Cell.fresh (∅ : Finset C)) := ⟨by simp [Cell.fresh], by simp [Cell.fresh]⟩
  have hold := (hzero.run p).1
  have hnow := hzero.run (p ++ .get i :: (q ++ mid ++ w))
  have hlater : (stores p).length + 1 ≤ (stores (p ++ .get i :: (q ++ mid ++ w))).length := by
    have hj : j ∈ stores mid := List.mem_filterMap.mpr ⟨.replace j, hrepl, rfl⟩
    have hpos := List.length_pos_of_mem hj
    simp only [stores, List.filterMap_append, List.filterMap_cons, List.length_append] at hpos ⊢
    omega
  have hstore : Short 1 ((stores (p ++ .get i :: (q ++ mid ++ w))).length + 1)
      (run sign (.fresh ∅) (p ++ .get i :: (q ++ mid ++ w) ++ [.replace i])) := by
    rw [run_concat, Cell.step, hcopy]
    refine ⟨?_, fun c names hc => ?_⟩
    · have hcard := Finset.card_insert_le i (run sign (.fresh ∅) p).slot
      simp only [sign]
      omega
    · have hnames := hnow.2 c names hc
      omega
  have hend := hstore.run z
  rw [← run_append] at hend
  have hall : p ++ .get i :: (q ++ mid ++ w) ++ [.replace i] ++ z = sched := by
    rw [hsched]
    simp
  have hcount : (stores (p ++ .get i :: (q ++ mid ++ w))).length + 1 + (stores z).length =
      (stores sched).length := by
    rw [hsched]
    simp only [stores, List.filterMap_append, List.filterMap_cons, List.length_append,
      List.length_cons]
    omega
  rwa [hall, hcount] at hend

/-- A core whose function is a constant decides the outcome of every serial order. -/
theorem serial_const {m : C} {v : S} {order : List C} (hm : m ∈ order) (a : S) :
    serial (fun c s => if c = m then v else s) a order = v := by
  have hkeep : ∀ order : List C, serial (fun c s => if c = m then v else s) v order = v := by
    intro order
    induction order with
    | nil => rfl
    | cons c order ih =>
      have hhead : (if c = m then v else v) = v := ite_self v
      simpa [serial, hhead] using ih
  induction order generalizing a with
  | nil => exact absurd hm List.not_mem_nil
  | cons c order ih =>
    by_cases hc : c = m
    · subst hc
      simpa [serial] using hkeep order
    · have hm' : m ∈ order := (List.mem_cons.mp hm).resolve_left fun h => hc h.symm
      simpa [serial, hc] using ih hm' a

/-- Where stores overlap, some core's function is lost. -/
theorem exists_lost (h : Interleaves cores sched) (hnodup : cores.Nodup) (ho : Overlaps sched)
    {a v : S} (hav : a ≠ v) :
    ∃ m ∈ cores, ∀ order, order.Perm cores →
      (run (fun c s => if c = m then v else s) (.fresh a) sched).slot ≠
        serial (fun c s => if c = m then v else s) a order := by
  -- a core that has not signed in the end
  obtain ⟨m, hm, hmiss⟩ : ∃ m ∈ cores, m ∉ (run sign (.fresh ∅) sched).slot := by
    by_contra hall
    push Not at hall
    have hsub : cores.toFinset ⊆ (run sign (.fresh ∅) sched).slot :=
      fun c hc => hall c (List.mem_toFinset.mp hc)
    have hcard := Finset.card_le_card hsub
    rw [List.toFinset_card_of_nodup hnodup, ← (h.stores_perm hnodup).length_eq] at hcard
    have hshort := (short_of_overlaps h ho).1
    omega
  refine ⟨m, hm, fun order horder => ?_⟩
  rw [serial_const (horder.mem_iff.mpr hm)]
  -- its constant is seen only where its name is
  let mark : Finset C → S := fun names => if m ∈ names then v else a
  have hmark : ∀ (c : C) (names : Finset C),
      (if c = m then v else mark names) = mark (sign c names) := by
    intro c names
    by_cases hc : c = m
    · simp [mark, sign, hc]
    · have hcm : ¬ m = c := fun hmc => hc hmc.symm
      simp [mark, sign, hc, hcm]
  have hrun := run_map hmark (.fresh ∅) sched
  have hfresh : Cell.map mark (Cell.fresh ∅) = (Cell.fresh a : Cell C S) := by
    simp [Cell.map, Cell.fresh, mark]
  rw [hfresh] at hrun
  rw [hrun]
  simpa [Cell.map, mark, hmiss] using hav

/-- An interleaving gives a serial result for all functions exactly when no store overlaps another
core's read-modify-write. -/
theorem serializable_iff [Nontrivial S] (h : Interleaves cores sched) (hnodup : cores.Nodup) :
    (∀ (init : S) (f : C → S → S), ∃ order, order.Perm cores ∧
      (run f (.fresh init) sched).slot = serial f init order) ↔ ¬ Overlaps sched := by
  constructor
  · intro hserial ho
    obtain ⟨a, v, hav⟩ := exists_pair_ne S
    obtain ⟨m, _, hlost⟩ := exists_lost h hnodup ho hav
    obtain ⟨order, horder, heq⟩ := hserial a (fun c s => if c = m then v else s)
    exact hlost order horder heq
  · intro hno init f
    exact ⟨stores sched, h.stores_perm hnodup,
      run_slot_serial h hno f init (List.append_nil sched).symm⟩

end Lost

end Harmony.Lib.Rmw
