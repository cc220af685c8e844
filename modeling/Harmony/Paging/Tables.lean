import Harmony.Paging.Failure
import Mathlib.Algebra.Order.BigOperators.Group.Finset

/-!
# What a mapping costs

The frames a call of `map_to` takes, exactly: one for each table of the page's walk that is not
there yet. The tables below the root are known by the keys that lead to them, so what there is after
the call is a union (`T ∪ page.ways`), and the frames left and the tables made add up to the frames
there were.

* `Spent`: that sum, on the way down.
* `wp_mapTo_charged`: the call pays for the missing tables, or there were too few frames for them,
  or the page was mapped.
* `card_pathsOf`: the number of tables for a set of pages, from the page numbers alone.
-/

namespace Harmony

open Lib
open BumpAllocator (Claimed)

/-- The keys that lead to the tables of the page's walk, below the root. -/
def Page.ways (page : Page) : Finset (List (Fin 512)) :=
  {page.keys.take 1, page.keys.take 2, page.keys.take 3}

/-- `T` is the tables below the root, by the keys that lead to them. -/
def Tables (scope : Fin 512 → Prop) (root : Nat) (mem : Mem) (T : Finset (List (Fin 512))) : Prop :=
  ∀ ks, ks ∈ T ↔ ks ≠ [] ∧ ∃ n, TableAt scope root mem ks n

theorem Page.mem_ways {page : Page} {ks : List (Fin 512)} :
    ks ∈ page.ways ↔ ks ≠ [] ∧ ks.length < 4 ∧ ks <+: page.keys := by
  have hlen := page.length_keys
  simp only [Page.ways, Finset.mem_insert, Finset.mem_singleton]
  constructor
  · have htake : ∀ i, 0 < i → i < 4 → page.keys.take i ≠ [] ∧ (page.keys.take i).length < 4 ∧
        page.keys.take i <+: page.keys := by
      intro i h0 h4
      have hl : (page.keys.take i).length = i := by
        rw [List.length_take, hlen]
        omega
      refine ⟨fun hnil => ?_, by omega, List.take_prefix _ _⟩
      rw [hnil, List.length_nil] at hl
      omega
    rintro (rfl | rfl | rfl)
    · exact htake 1 (by decide) (by decide)
    · exact htake 2 (by decide) (by decide)
    · exact htake 3 (by decide) (by decide)
  · rintro ⟨hne, hlt, hpre⟩
    have hpos := List.length_pos_of_ne_nil hne
    have htake := List.prefix_iff_eq_take.mp hpre
    obtain h | h | h : ks.length = 1 ∨ ks.length = 2 ∨ ks.length = 3 := by omega
    · rw [h] at htake
      exact .inl htake
    · rw [h] at htake
      exact .inr (.inl htake)
    · rw [h] at htake
      exact .inr (.inr htake)

/-! ## The way down -/

section Way

variable {env : Env} {scope : Fin 512 → Prop} {root : Nat} {page : Page} {parent : PageTableFlags}
  {a : BumpAllocator} {m : Machine} {s t : Spot} {T T' : Finset (List (Fin 512))}

/-- **The frames taken so far are the tables made so far**, all of them on the page's walk. -/
structure Spent (scope : Fin 512 → Prop) (root : Nat) (page : Page) (a : BumpAllocator)
    (m : Machine) (T T' : Finset (List (Fin 512))) (s : Spot) : Prop where
  way : OnWay scope root page s
  length_eq : s.machine.retypeMap.length = m.retypeMap.length
  tables : Tables scope root s.machine.mem T'
  kept : T ⊆ T'
  made : T' ⊆ T ∪ page.ways
  stock : ∃ n, T'.card = T.card + n ∧ Stock a m n s

theorem Spent.start (hR : Rooted scope root m) (hT : Tables scope root m.mem T)
    (ha : Searchable a m) : Spent scope root page a m T T ⟨4, root, a, m⟩ where
  way := ⟨hR, [], rfl, Radix.node_root (by decide)⟩
  length_eq := rfl
  tables := hT
  kept := subset_rfl
  made := Finset.subset_union_left
  stock := ⟨0, rfl, .refl ha 4 root⟩

/-- The keys to the next level are on the page's walk. -/
theorem Page.step_mem_ways {ks : List (Fin 512)} {lower : Nat} (hl : 0 < lower)
    (hks : ks ++ page.keysFrom (lower + 1) = page.keys) :
    ks ++ [page.key (lower + 1)] ∈ page.ways := by
  obtain ⟨hks', _, hin⟩ := Page.open_step hl hks
  refine Page.mem_ways.mpr ⟨List.append_ne_nil_of_right_ne_nil _ (List.cons_ne_nil _ _),
    ?_, _, hks'⟩
  rw [List.length_append, List.length_singleton]
  exact hin

/-- Where the entry is empty, no table is there yet. -/
theorem Tables.vacant (hT : Tables scope root m.mem T) {ks : List (Fin 512)} {n : Nat} {k : Fin 512}
    (hn : TableAt scope root m.mem ks n) (hvac : entryOf m.mem n k = none) : ks ++ [k] ∉ T := by
  intro hmem
  obtain ⟨_, p, hp⟩ := (hT _).mp hmem
  obtain ⟨q, e, ⟨_, _, hq, he⟩, _⟩ := hp.exists_link
  obtain rfl : q = n := hq.end_unique hn
  rw [hvac] at he
  cases he

/-- **One level down.** -/
theorem Spent.down (h4 : scope (page.key 4)) (h : Spent scope root page a m T T' s)
    (hd : Down env page parent s t) : ∃ T'', Spent scope root page a m T T'' t := by
  have hway := (hd.onWay h4 h.way).1
  obtain ⟨⟨hR, ks, hks, hn⟩, hlen, htables, hkept, hmade, made, hcard, hstock⟩ := h
  cases hd with
  | follow hl he hhuge =>
    exact ⟨T', hway, hlen, htables, hkept, hmade, made, hcard,
      hstock.searchable, hstock.skipped, hstock.count⟩
  | @build lower n b b' m₁ mc f hl he halloc hc =>
    obtain ⟨_, hs, hin⟩ := Page.keys_step h4 hl hks
    have hg := withTable_graft parent hR hc hn hin hs he
    have hnew := htables.vacant hn he
    refine ⟨insert (ks ++ [page.key (lower + 1)]) T', hway, hc.length_eq.trans hlen, fun qs => ?_,
      hkept.trans (Finset.subset_insert _ _), ?_, made + 1, ?_, hstock.build halloc hc⟩
    · rw [Finset.mem_insert, htables qs]
      constructor
      · rintro (rfl | ⟨hne, p, hp⟩)
        · exact ⟨List.append_ne_nil_of_right_ne_nil _ (List.cons_ne_nil _ _), f.number,
            (hg.node_iff hR.tree).mpr (.inr ⟨rfl, rfl⟩)⟩
        · exact ⟨hne, p, (hg.node_iff hR.tree).mpr (.inl hp)⟩
      · rintro ⟨hne, p, hp⟩
        rcases (hg.node_iff hR.tree).mp hp with hold | ⟨rfl, _⟩
        · exact .inr ⟨hne, p, hold⟩
        · exact .inl rfl
    · exact Finset.insert_subset (Finset.mem_union_right _ (Page.step_mem_ways hl hks)) hmade
    · rw [Finset.card_insert_of_notMem hnew, hcard, Nat.add_assoc]

theorem Spent.descent (h4 : scope (page.key 4)) (h : Spent scope root page a m T T' s)
    (hd : Descent env page parent s t) : ∃ T'', Spent scope root page a m T T'' t := by
  induction hd with
  | refl => exact ⟨T', h⟩
  | tail _ hdown ih =>
    obtain ⟨_, h'⟩ := ih
    exact h'.down h4 hdown

/-- At the last table of the walk, all of them are there. -/
theorem Spent.complete (h : Spent scope root page a m T T' s) (hl : s.level = 1) :
    T' = T ∪ page.ways := by
  refine h.made.antisymm (Finset.union_subset h.kept fun qs hqs => ?_)
  obtain ⟨hne, hlt, hpre⟩ := Page.mem_ways.mp hqs
  obtain ⟨ks, hks, hn⟩ := h.way.path
  rw [hl] at hks
  have hkslen : ks.length = 3 := by
    have hlen := congrArg List.length hks
    rw [List.length_append, Page.length_keysFrom, Page.length_keys] at hlen
    omega
  obtain ⟨rest, rfl⟩ : qs <+: ks :=
    List.prefix_of_prefix_length_le hpre ⟨_, hks⟩ (by omega)
  exact (h.tables qs).mpr ⟨hne, hn.above⟩

/-- Where an entry above the last level is empty, a table is still to be made. -/
theorem Spent.card_lt (h : Spent scope root page a m T T' s) (hl : 1 < s.level)
    (he : s.entry page = none) : T'.card < (T ∪ page.ways).card := by
  obtain ⟨ks, hks, hn⟩ := h.way.path
  obtain ⟨lower, hlevel⟩ := Nat.exists_eq_succ_of_ne_zero (Nat.ne_zero_of_lt hl)
  unfold Spot.entry at he
  rw [hlevel] at hks he
  refine Finset.card_lt_card
    ((Finset.ssubset_iff_of_subset h.made).mpr ⟨_, ?_, h.tables.vacant hn he⟩)
  exact Finset.mem_union_right _ (Page.step_mem_ways (by omega) hks)

end Way

/-! ## The call -/

/-- How the call ends, and what it has cost. -/
inductive Charged (scope : Fin 512 → Prop) (root : Nat) (page : Page) (a : BumpAllocator)
    (m : Machine)
    (T : Finset (List (Fin 512))) : Except MapperError Unit × BumpAllocator → Machine → Prop
  | paid {b : BumpAllocator} {m' : Machine} (htables : Tables scope root m'.mem (T ∪ page.ways))
      (hsearch : Searchable b m') (hlength : m'.retypeMap.length = m.retypeMap.length)
      (hskipped : m'.freeFrom b.index = m'.freeFrom a.index)
      (hcount : (m.freeFrom a.index).card + T.card =
        (m'.freeFrom b.index).card + (T ∪ page.ways).card) :
      Charged scope root page a m T (.ok (), b) m'
  | short {b : BumpAllocator} {m' : Machine}
      (hshort : (m.freeFrom a.index).card + T.card < (T ∪ page.ways).card) :
      Charged scope root page a m T (.error .frameAllocationError, b) m'
  | occupied {f : RawFrame} {b : BumpAllocator} {m' : Machine}
      (hmapped : trailOf m.mem root page.keys ≠ none) :
      Charged scope root page a m T (.error (.alreadyMapped f), b) m'

section Call

variable {env : Env} {scope : Fin 512 → Prop} {root : Nat} {page : Page} {frame : RawFrame}
  {flags parent : PageTableFlags} {a : BumpAllocator} {m m' : Machine} {s : Spot}
  {T T' : Finset (List (Fin 512))}

/-- The leaf is no table. -/
theorem Tables.leafSet (hR : Rooted scope root m) (hframe : frame.Aligned)
    (hne : frame.base.addr ≠ 0 ∨ flags.bits ≠ 0) (hT : Tables scope root m.mem T)
    (hleaf : LeafSet scope root page frame flags m m') : Tables scope root m'.mem T := by
  obtain ⟨ks, t, _, _, hw⟩ := hleaf.leafWrite hframe hne
  intro qs
  rw [hT qs]
  exact and_congr_right fun _ => exists_congr fun n => (hw.node_iff hR.tree).symm

theorem Spent.charged (h4 : scope (page.key 4)) (hno : NoHuge scope root m.mem)
    (hparent : parent.contains .hugePage = false) (hframe : frame.Aligned)
    (hne : frame.base.addr ≠ 0 ∨ flags.bits ≠ 0) (h : Spent scope root page a m T T' s)
    (hg : Grown scope root parent m s.machine) {r : Except MapperError Unit × BumpAllocator}
    (hend : Halt env page frame flags s r m') : Charged scope root page a m T r m' := by
  obtain ⟨made, hcard, hstock⟩ := h.stock
  have hcount := hstock.count
  have hleaf := hend.leafSet h.way
  obtain ⟨ks, hks, hn⟩ := h.way.path
  cases hend with
  | @mapped e hl he =>
    unfold Spot.entry at he
    rw [hl] at hks he
    refine .occupied ?_
    -- the page is mapped here, and growing the tables has not changed that
    obtain ⟨_, _, es, htr, hlast⟩ := hn
    unfold trailOf
    rw [← hg.grows.full page.keys page.length_keys h4, ← hks]
    show Radix.trail target _ root (ks ++ [page.key 1]) ≠ none
    rw [Radix.trail_concat_of_some _ htr, hlast, he]
    exact Option.some_ne_none _
  | @huge e hl he hhuge =>
    obtain ⟨lower, hlevel⟩ := Nat.exists_eq_succ_of_ne_zero (Nat.ne_zero_of_lt hl)
    unfold Spot.entry at he
    rw [hlevel] at hks he
    obtain ⟨_, hs, hin⟩ := Page.keys_step h4 (by omega) hks
    have hnot : e.2.contains .hugePage = false := by
      rcases hg.grows.link_new _ _ _ _ ⟨hin, hs, hn, he⟩ with hold | ⟨hflags, _⟩
      · exact hno _ _ _ _ hold
      · rw [hflags, PageTableFlags.contains_union_present parent rfl]
        exact hparent
    rw [hnot] at hhuge
    cases hhuge
  | exhausted hl he halloc =>
    have hnone := freeFrom_of_none hstock.searchable halloc
    rw [hstock.skipped] at hnone
    rw [hnone, Finset.card_empty] at hcount
    have hlt := h.card_lt hl he
    exact .short (by omega)
  | written hl he =>
    have htables := h.tables
    rw [h.complete hl] at hcard htables
    refine .paid (htables.leafSet h.way.rooted hframe hne (hleaf rfl))
      ⟨hstock.searchable.addressable, hstock.searchable.cursor⟩ h.length_eq hstock.skipped ?_
    have hskipped : (s.machine.freeFrom s.allocator.index).card =
        (s.machine.freeFrom a.index).card := congrArg Finset.card hstock.skipped
    show _ = (s.machine.freeFrom s.allocator.index).card + _
    omega

/-- Where the direct map covers the table and the cursor is in it, the call does not panic. -/
theorem Spent.no_panic (h4 : scope (page.key 4)) (hcov : ¬ Uncovered env m)
    (h : Spent scope root page a m T T' s) (hp : Panics env page s m') : False := by
  obtain ⟨made, _, hstock⟩ := h.stock
  obtain ⟨ks, hks, hn⟩ := h.way.path
  have hinside : ∀ {n : Nat} {t : State × Nat}, s.machine.typing n = some t →
      n < m.retypeMap.length := fun ht => h.length_eq ▸ Machine.lt_length_of_typing ht
  cases hp with
  | @follow e p hl he hhuge hptr =>
    obtain ⟨lower, hlevel⟩ := Nat.exists_eq_succ_of_ne_zero (Nat.ne_zero_of_lt hl)
    unfold Spot.entry at he
    rw [hlevel] at hks he
    obtain ⟨_, hs, hin⟩ := Page.keys_step h4 (by omega) hks
    have hnext : TableAt scope root s.machine.mem (ks ++ [page.key (lower + 1)]) (target e) :=
      Radix.Link.node ⟨hin, hs, hn, he⟩
    obtain ⟨c, hc, _⟩ := h.way.rooted.typed _ _ hnext
    exact hcov ⟨_, hinside hc, RawFrame.unmapped_of_ptr (entryOf_aligned he) hptr⟩
  | alloc hl he halloc =>
    have hans := allocKernelFrame_answers env hstock.searchable
    unfold wp at hans
    rw [halloc] at hans
    exact hans
  | build hl he halloc hc hptr =>
    exact hcov ⟨_, hinside hc.was_untyped, RawFrame.unmapped_of_ptr hc.aligned hptr⟩

/-- **What the call costs.** -/
theorem wp_mapTo_charged (hR : Rooted scope root m) (h4 : scope (page.key 4))
    (hno : NoHuge scope root m.mem) (hparent : parent.contains .hugePage = false)
    (hframe : frame.Aligned) (hne : frame.base.addr ≠ 0 ∨ flags.bits ≠ 0) (hcov : ¬ Uncovered env m)
    (ha : Searchable a m) (hT : Tables scope root m.mem T) :
    wp (mapTo env page frame flags parent (root * frameSize) a) (Charged scope root page a m T)
      (fun _ _ => False) m := by
  have hstart : Spent scope root page a (m.noted (.mapTo page)) T T
      ⟨4, root, a, m.noted (.mapTo page)⟩ := .start hR.noted hT ⟨ha.addressable, ha.cursor⟩
  have hno' : NoHuge scope root (m.noted (.mapTo page)).mem := hno
  have hcov' : ¬ Uncovered env (m.noted (.mapTo page)) := hcov
  refine wp_mono (mapTo_descends env page frame flags parent root a m) ?_ ?_
  · rintro r m' ⟨s, hs, hend⟩
    obtain ⟨T', hspent⟩ := hstart.descent h4 hs
    have hcharged := hspent.charged h4 hno' hparent hframe hne (hs.onWay h4 hstart.way).2 hend
    cases hcharged with
    | paid htables hsearch hlength hskipped hcount =>
      exact .paid htables hsearch hlength hskipped hcount
    | short hshort => exact .short hshort
    | occupied hmapped => exact .occupied hmapped
  · rintro _ m' ⟨s, hs, hp⟩
    obtain ⟨T', hspent⟩ := hstart.descent h4 hs
    exact hspent.no_panic h4 hcov' hp

end Call

/-! ## By page numbers -/

/-- The number of the page. -/
def Page.number (page : Page) : Nat := page.base.addr / pageSize

/-- A page number in base 512, four digits. -/
def keysOf (n : Nat) : List (Fin 512) :=
  [Fin.ofNat 512 (n / 512 ^ 3), Fin.ofNat 512 (n / 512 ^ 2), Fin.ofNat 512 (n / 512),
    Fin.ofNat 512 n]

/-- The tables for the pages with these numbers, by the keys that lead to them. -/
def pathsOf (pages : List Nat) : Finset (List (Fin 512)) :=
  (Finset.range 3).biUnion fun i => pages.toFinset.image fun n => (keysOf n).take (3 - i)

/-- How many tables they need: a table of level `i + 1` serves `512 ^ (i + 1)` pages in a row. -/
def tableCount (pages : List Nat) : Nat :=
  ∑ i ∈ Finset.range 3, (pages.toFinset.image (· / 512 ^ (i + 1))).card

theorem Page.keys_eq (page : Page) : page.keys = keysOf page.number := by
  simp only [Page.keys, Page.keysFrom, Page.key, Page.index, VirtAddr.pageTableIndex_eq, keysOf,
    Page.number, pageSize, List.cons.injEq, Fin.ext_iff, Fin.ofNat, and_true]
  omega

theorem take_keysOf_inj {n n' i : Nat} (hn : n < 512 ^ 4) (hn' : n' < 512 ^ 4) (hi : i < 3) :
    (keysOf n).take (3 - i) = (keysOf n').take (3 - i) ↔
    n / 512 ^ (i + 1) = n' / 512 ^ (i + 1) := by
  interval_cases i <;>
    simp only [keysOf, List.take, List.cons.injEq, Fin.ext_iff, Fin.ofNat, and_true] <;> omega

theorem length_take_keysOf (n : Nat) {i : Nat} (hi : i < 3) :
    ((keysOf n).take (3 - i)).length = 3 - i := by
  rw [List.length_take]
  exact Nat.min_eq_left (by simp only [keysOf, List.length_cons, List.length_nil]; omega)

/-- **Counting the tables**: the keys of a level tell the same pages apart as their numbers divided
by what a table of the level below serves. -/
theorem card_pathsOf {pages : List Nat} (hlow : ∀ n ∈ pages, n < 512 ^ 4) :
    (pathsOf pages).card = tableCount pages := by
  unfold pathsOf tableCount
  rw [Finset.card_biUnion]
  · refine Finset.sum_congr rfl fun i hi => ?_
    have hi : i < 3 := Finset.mem_range.mp hi
    have hcut : ∀ n, n < 512 ^ 4 → n / 512 ^ (i + 1) * 512 ^ (i + 1) < 512 ^ 4 := fun n hn =>
      Nat.lt_of_le_of_lt (Nat.div_mul_le_self _ _) hn
    have hpos : 0 < 512 ^ (i + 1) := Nat.pow_pos (by decide)
    have hfactor : (pages.toFinset.image fun n => (keysOf n).take (3 - i)) =
        (pages.toFinset.image (· / 512 ^ (i + 1))).image
          fun q => (keysOf (q * 512 ^ (i + 1))).take (3 - i) := by
      rw [Finset.image_image]
      refine Finset.image_congr fun n hn => ?_
      have hn := hlow n (List.mem_toFinset.mp hn)
      rw [Function.comp_apply, take_keysOf_inj hn (hcut n hn) hi, Nat.mul_div_cancel _ hpos]
    rw [hfactor]
    refine Finset.card_image_of_injOn fun q hq q' hq' heq => ?_
    obtain ⟨n, hn, rfl⟩ := Finset.mem_image.mp hq
    obtain ⟨n', hn', rfl⟩ := Finset.mem_image.mp hq'
    have hn := hlow n (List.mem_toFinset.mp hn)
    have hn' := hlow n' (List.mem_toFinset.mp hn')
    rwa [take_keysOf_inj (hcut n hn) (hcut n' hn') hi, Nat.mul_div_cancel _ hpos,
      Nat.mul_div_cancel _ hpos] at heq
  · intro i hi j hj hij
    have hi : i < 3 := Finset.mem_range.mp hi
    have hj : j < 3 := Finset.mem_range.mp hj
    rw [Function.onFun, Finset.disjoint_left]
    intro ks hks hks'
    obtain ⟨n, _, rfl⟩ := Finset.mem_image.mp hks
    obtain ⟨n', _, heq⟩ := Finset.mem_image.mp hks'
    have hlen := congrArg List.length heq
    rw [length_take_keysOf n hi, length_take_keysOf n' hj] at hlen
    omega

theorem mem_pathsOf {pages : List Nat} {ks : List (Fin 512)} :
    ks ∈ pathsOf pages ↔ ∃ n ∈ pages, ∃ i < 3, (keysOf n).take (3 - i) = ks := by
  simp only [pathsOf, Finset.mem_biUnion, Finset.mem_range, Finset.mem_image, List.mem_toFinset]
  constructor
  · rintro ⟨i, hi, n, hn, heq⟩
    exact ⟨n, hn, i, hi, heq⟩
  · rintro ⟨n, hn, i, hi, heq⟩
    exact ⟨i, hi, n, hn, heq⟩

theorem Page.mem_ways_iff {page : Page} {ks : List (Fin 512)} :
    ks ∈ page.ways ↔ ∃ i < 3, (keysOf page.number).take (3 - i) = ks := by
  simp only [Page.ways, Page.keys_eq, Finset.mem_insert, Finset.mem_singleton]
  constructor
  · rintro (rfl | rfl | rfl)
    · exact ⟨2, by decide, rfl⟩
    · exact ⟨1, by decide, rfl⟩
    · exact ⟨0, by decide, rfl⟩
  · rintro ⟨i, hi, rfl⟩
    interval_cases i
    · exact .inr (.inr rfl)
    · exact .inr (.inl rfl)
    · exact .inl rfl

theorem pathsOf_concat (pages : List Nat) (page : Page) :
    pathsOf (pages ++ [page.number]) = pathsOf pages ∪ page.ways := by
  ext ks
  rw [Finset.mem_union, mem_pathsOf, mem_pathsOf, Page.mem_ways_iff]
  simp only [List.mem_append, List.mem_singleton, or_and_right, exists_or, exists_eq_left]

/-- More pages need no fewer tables. -/
theorem tableCount_mono {pages more : List Nat} (h : pages ⊆ more) :
    tableCount pages ≤ tableCount more := by
  refine Finset.sum_le_sum fun _ _ => Finset.card_le_card (Finset.image_subset_image fun n hn => ?_)
  exact List.mem_toFinset.mpr (h (List.mem_toFinset.mp hn))

end Harmony
