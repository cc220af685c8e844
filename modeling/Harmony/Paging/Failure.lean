import Harmony.Paging.MapTo
import Mathlib.Data.Finset.Card

/-!
# How `map_to` fails

What each error of `Addrspace::map_to` says about the walk of the page, and what the call leaves
behind. The walk stops at a `HUGE_PAGE` entry (`walkEnd`), so the tables are those reached through
the other entries (`openEntry`), and huge pages may be anywhere in the tree.

* `Progress`: on the way down, the walk is where it was, or the tables are new and empty; so an
  occupied or huge entry is never met once a table was made.
* `OpenGrown`: the tables made so far hang in the tree and give no page anything.
* `map_to_fails_cleanly`: the errors, the state they leave and the retry.
-/

namespace Harmony

open Lib
open BumpAllocator (Claimed Answer First)

/-! ## The walk -/

/-- Where the walk of a page ends: at an empty entry, at a huge page, or at the page. -/
inductive WalkEnd where
  | missing (level : Nat)
  | huge (level : Nat) (e : Mapping)
  | mapped (e : Mapping)

/-- The mapping the walk gives, with its level. -/
def WalkEnd.gives : WalkEnd → Option (Nat × Mapping)
  | .missing _ => none
  | .huge level e => some (level, e)
  | .mapped e => some (1, e)

/-- The walk of a page from a level down, in the table in frame number `n`. -/
def walkEnd (mem : Mem) (page : Page) : Nat → Nat → WalkEnd
  | 0, _ => .missing 0
  | lower + 1, n =>
    match entryOf mem n (page.key (lower + 1)) with
    | none => .missing (lower + 1)
    | some e =>
      if lower = 0 then .mapped e
      else if e.2.contains .hugePage then .huge (lower + 1) e
      else walkEnd mem page lower (target e)

/-- The walk of a page from the L4 table in frame `l4`. -/
def walkOf (mem : Mem) (l4 : RawFrame) (page : Page) : WalkEnd := walkEnd mem page 4 l4.number

section Walk

variable {mem : Mem} {page : Page} {lower n : Nat} {e : Mapping}

theorem walkEnd_of_none (h : entryOf mem n (page.key (lower + 1)) = none) :
    walkEnd mem page (lower + 1) n = .missing (lower + 1) := by
  unfold walkEnd
  rw [h]

theorem walkEnd_bottom (h : entryOf mem n (page.key 1) = some e) :
    walkEnd mem page 1 n = .mapped e := by
  unfold walkEnd
  rw [h]
  rfl

theorem walkEnd_of_huge (hl : 0 < lower) (h : entryOf mem n (page.key (lower + 1)) = some e)
    (hhuge : e.2.contains .hugePage = true) :
    walkEnd mem page (lower + 1) n = .huge (lower + 1) e := by
  unfold walkEnd
  rw [h]
  simp only [Nat.ne_of_gt hl, hhuge, if_false, if_true]

theorem walkEnd_follow (hl : 0 < lower) (h : entryOf mem n (page.key (lower + 1)) = some e)
    (hhuge : e.2.contains .hugePage = false) :
    walkEnd mem page (lower + 1) n = walkEnd mem page lower (target e) := by
  conv_lhs => unfold walkEnd
  rw [h]
  simp only [Nat.ne_of_gt hl, hhuge, if_false, Bool.false_eq_true]

end Walk

/-! ## The tables of the walk -/

/-- Entry `k` of table `n`, unless it maps a huge page. -/
def openEntry (mem : Mem) (n : Nat) (k : Fin 512) : Option Mapping :=
  (entryOf mem n k).filter fun e => !e.2.contains .hugePage

/-- Table `n` is reached from `root` along the keys `ks`, past no huge page. -/
abbrev OpenTable (root : Nat) (mem : Mem) (ks : List (Fin 512)) (n : Nat) : Prop :=
  Radix.Node target (openEntry mem) root 4 (fun _ => True) ks n

/-- Entry `k` of table `n` leads to another table. -/
abbrev OpenLink (root : Nat) (mem : Mem) (ks : List (Fin 512)) (n : Nat) (k : Fin 512)
    (e : Mapping) : Prop :=
  Radix.Link target (openEntry mem) root 4 (fun _ => True) ks n k e

/-- The tables under `root` form a tree of kernel frames. -/
structure Tabled (root : Nat) (m : Machine) : Prop where
  tree : Radix.Tree target (openEntry m.mem) root 4 (fun _ => True)
  typed : ∀ ks n, OpenTable root m.mem ks n → ∃ c, m.typing n = some (.kernel, c)

/-- One entry of the tree, and no other, leads to the table. -/
def LinkedOnce (l4 : RawFrame) (mem : Mem) (n : Nat) : Prop :=
  ∃ ks p k e, OpenLink l4.number mem ks p k e ∧ target e = n ∧
    ∀ ks' p' k' e', OpenLink l4.number mem ks' p' k' e' → target e' = n → p' = p ∧ k' = k

section Tabled

variable {root : Nat} {m mc : Machine} {f : RawFrame} {ks : List (Fin 512)} {n : Nat}
  {k : Fin 512} {e : Mapping} {parent : PageTableFlags}

theorem openEntry_eq_some {mem : Mem} :
    openEntry mem n k = some e ↔ entryOf mem n k = some e ∧ e.2.contains .hugePage = false := by
  unfold openEntry
  rw [Option.filter_eq_some_iff]
  simp

theorem openEntry_of_none {mem : Mem} (h : entryOf mem n k = none) : openEntry mem n k = none := by
  unfold openEntry
  rw [h]
  rfl

theorem openEntry_congr {mem mem' : Mem} (h : entryOf mem' n k = entryOf mem n k) :
    openEntry mem' n k = openEntry mem n k := by
  unfold openEntry
  rw [h]

theorem Machine.lt_length_of_typing {t : State × Nat} (h : m.typing n = some t) :
    n < m.retypeMap.length := by
  by_contra hge
  simp [Machine.typing, List.getElem?_eq_none (Nat.le_of_not_lt hge)] at h

theorem Tabled.lt_length (h : Tabled root m) (hn : OpenTable root m.mem ks n) :
    n < m.retypeMap.length := by
  obtain ⟨c, hc⟩ := h.typed ks n hn
  exact Machine.lt_length_of_typing hc

/-- A frame just claimed is not a kernel frame that was there. -/
theorem BumpAllocator.Claimed.ne_of_typed {c : Nat} (hc : Claimed .kernel m f mc)
    (hn : m.typing n = some (.kernel, c)) : n ≠ f.number := by
  rintro rfl
  rw [hc.was_untyped] at hn
  exact absurd hn (by simp)

theorem Tabled.ne_claimed (h : Tabled root m) (hc : Claimed .kernel m f mc)
    (hn : OpenTable root m.mem ks n) : n ≠ f.number := by
  obtain ⟨c, hty⟩ := h.typed ks n hn
  exact hc.ne_of_typed hty

theorem Page.open_step {page : Page} {lower : Nat} (hl : 0 < lower)
    (hks : ks ++ page.keysFrom (lower + 1) = page.keys) :
    (ks ++ [page.key (lower + 1)]) ++ page.keysFrom lower = page.keys ∧
      Radix.Scoped (fun _ => True) (ks ++ [page.key (lower + 1)]) ∧ ks.length + 1 < 4 :=
  Page.keys_step trivial hl hks

/-- The next table on a page's way. -/
theorem OpenTable.next {mem : Mem} {page : Page} {lower : Nat} (hl : 0 < lower)
    (hks : ks ++ page.keysFrom (lower + 1) = page.keys) (hn : OpenTable root mem ks n)
    (he : entryOf mem n (page.key (lower + 1)) = some e)
    (hhuge : e.2.contains .hugePage = false) :
    (ks ++ [page.key (lower + 1)]) ++ page.keysFrom lower = page.keys ∧
      OpenTable root mem (ks ++ [page.key (lower + 1)]) (target e) := by
  obtain ⟨hks', hs, hin⟩ := Page.open_step hl hks
  exact ⟨hks', Radix.Link.node ⟨hin, hs, hn, openEntry_eq_some.mpr ⟨he, hhuge⟩⟩⟩

/-! ## One new table -/

/-- The new table is a graft of the tree, unless it hangs under a `HUGE_PAGE` entry. -/
theorem withTable_openGraft (hparent : parent.contains .hugePage = false) (hT : Tabled root m)
    (hc : Claimed .kernel m f mc) (hn : OpenTable root m.mem ks n) (hin : ks.length + 1 < 4)
    (hvac : entryOf m.mem n k = none) :
    Radix.Graft target (openEntry m.mem) (openEntry (withTable mc f parent n k).mem) root 4
      (fun _ => True) ks n k (f, parent.union .present) f.number where
  node := hn
  inner := hin
  in_scope := by cases ks <;> trivial
  vacant := openEntry_of_none hvac
  written := openEntry_eq_some.mpr ⟨entryOf_withTable_written hc,
    (PageTableFlags.contains_union_present parent rfl).trans hparent⟩
  target := rfl
  fresh _ _ ht := hT.ne_claimed hc ht
  empty j := openEntry_of_none (entryOf_withTable_empty (hT.ne_claimed hc hn) j)
  kept _ _ ht _ hne := openEntry_congr (entryOf_withTable_kept hc (hT.ne_claimed hc ht) hne)

/-- **The new table gives no page anything.** -/
theorem walkEnd_withTable (hparent : parent.contains .hugePage = false) (hT : Tabled root m)
    (hc : Claimed .kernel m f mc) (hn : OpenTable root m.mem ks n) (hin : ks.length + 1 < 4)
    (hvac : entryOf m.mem n k = none) (page : Page) (level : Nat) :
    ∀ (qs : List (Fin 512)) (t : Nat), qs ++ page.keysFrom level = page.keys →
      OpenTable root m.mem qs t →
      (walkEnd (withTable mc f parent n k).mem page level t).gives =
        (walkEnd m.mem page level t).gives := by
  induction level with
  | zero => exact fun _ _ _ _ => rfl
  | succ lower ih =>
    intro qs t hqs ht
    by_cases hat : t = n ∧ page.key (lower + 1) = k
    · -- through the entry that was empty, into the table that is
      obtain ⟨rfl, rfl⟩ := hat
      obtain rfl := hT.tree.path_unique hn ht
      have hl : lower ≠ 0 := by
        rintro rfl
        have hlen := congrArg List.length hqs
        rw [List.length_append, Page.length_keysFrom, Page.length_keys] at hlen
        omega
      obtain ⟨below, rfl⟩ := Nat.exists_eq_succ_of_ne_zero hl
      rw [walkEnd_of_none hvac, walkEnd_follow (Nat.succ_pos below) (entryOf_withTable_written hc)
        ((PageTableFlags.contains_union_present parent rfl).trans hparent)]
      have hnone : walkEnd (withTable mc f parent t (page.key (below + 1 + 1))).mem page (below + 1)
          f.number = .missing (below + 1) :=
        walkEnd_of_none (entryOf_withTable_empty (hT.ne_claimed hc hn) _)
      exact (congrArg WalkEnd.gives hnone :)
    · have hsame : entryOf (withTable mc f parent n k).mem t (page.key (lower + 1)) =
          entryOf m.mem t (page.key (lower + 1)) :=
        entryOf_withTable_kept hc (hT.ne_claimed hc ht) hat
      cases he : entryOf m.mem t (page.key (lower + 1)) with
      | none => rw [walkEnd_of_none he, walkEnd_of_none (hsame.trans he)]
      | some e =>
        rcases Nat.eq_zero_or_pos lower with rfl | hl
        · rw [walkEnd_bottom he, walkEnd_bottom (hsame.trans he)]
        · by_cases hhuge : e.2.contains .hugePage = true
          · rw [walkEnd_of_huge hl he hhuge, walkEnd_of_huge hl (hsame.trans he) hhuge]
          · rw [Bool.not_eq_true] at hhuge
            obtain ⟨hqs', ht'⟩ := OpenTable.next hl hqs ht he hhuge
            rw [walkEnd_follow hl he hhuge, walkEnd_follow hl (hsame.trans he) hhuge]
            exact ih _ _ hqs' ht'

/-- `m'` is `m` with new tables, each hung in the tree once and none of them seen by a walk. -/
structure OpenGrown (root : Nat) (m m' : Machine) : Prop where
  grows : Radix.Grows target (openEntry m.mem) (openEntry m'.mem) root 4 (fun _ => True)
    (fun n => m.typing n = some (.untyped, 0)) (fun _ => True)
  typed : ∀ ks n, OpenTable root m'.mem ks n → ∃ c, m'.typing n = some (.kernel, c)
  retyped : ∀ n, m'.typing n = m.typing n ∨ (m.typing n = some (.untyped, 0) ∧
    m'.typing n = some (.kernel, 1) ∧ ∃ ks p k e, OpenLink root m'.mem ks p k e ∧ target e = n)
  walks : ∀ page, (walkEnd m'.mem page 4 root).gives = (walkEnd m.mem page 4 root).gives

theorem OpenGrown.tabled {m' : Machine} (h : OpenGrown root m m') : Tabled root m' :=
  ⟨h.grows.tree, h.typed⟩

theorem OpenGrown.refl (h : Tabled root m) : OpenGrown root m m where
  grows := Radix.Grows.refl h.tree
  typed := h.typed
  retyped _ := Or.inl rfl
  walks _ := rfl

theorem OpenGrown.untyped {m' : Machine} (h : OpenGrown root m m')
    (hn : m'.typing n = some (.untyped, 0)) : m.typing n = some (.untyped, 0) := by
  rcases h.retyped n with heq | ⟨hu, _⟩
  · exact heq ▸ hn
  · exact hu

theorem OpenGrown.trans {m' m'' : Machine} (h : OpenGrown root m m') (h' : OpenGrown root m' m'') :
    OpenGrown root m m'' where
  grows := h.grows.trans h'.grows fun _ hn => h.untyped hn
  typed := h'.typed
  retyped n := by
    refine retyped_trans (h.retyped n) (h'.retyped n) ?_
    rintro ⟨ks, p, k, e, hl, he⟩
    exact ⟨ks, p, k, e, h'.grows.link hl, he⟩
  walks page := (h'.walks page).trans (h.walks page)

theorem withTable_openGrown (hparent : parent.contains .hugePage = false) (hT : Tabled root m)
    (hc : Claimed .kernel m f mc) (hn : OpenTable root m.mem ks n) (hin : ks.length + 1 < 4)
    (hvac : entryOf m.mem n k = none) : OpenGrown root m (withTable mc f parent n k) := by
  have hg := withTable_openGraft hparent hT hc hn hin hvac
  have hgrows : Radix.Grows target (openEntry m.mem) (openEntry (withTable mc f parent n k).mem)
      root 4 (fun _ => True) (fun n => m.typing n = some (.untyped, 0)) (fun _ => True) :=
    hg.grows hT.tree hc.was_untyped trivial
  refine ⟨hgrows, fun qs t ht => ?_, fun t => ?_, fun page => ?_⟩
  · rcases (hg.node_iff hT.tree).mp ht with ht | ⟨_, rfl⟩
    · obtain ⟨c, hty⟩ := hT.typed qs t ht
      exact ⟨c, (hc.typing_ne (hT.ne_claimed hc ht)).trans hty⟩
    · exact ⟨1, hc.typing_self⟩
  · by_cases ht : t = f.number
    · subst ht
      exact Or.inr ⟨hc.was_untyped, hc.typing_self, ks, n, k, _,
        ⟨hin, hg.in_scope, hgrows.node hn, hg.written⟩, rfl⟩
    · exact Or.inl (hc.typing_ne ht)
  · exact walkEnd_withTable hparent hT hc hn hin hvac page 4 [] root rfl
      (Radix.node_root (by decide))

end Tabled

/-! ## The frames left -/

/-- The free frames from an index on. -/
def Machine.freeFrom (m : Machine) (index : Nat) : Finset Nat :=
  (Finset.range m.retypeMap.length).filter fun n => index ≤ n ∧ m.typing n = some (.untyped, 0)

/-- The allocator's cursor is in the retype table, whose frames have addresses. -/
structure Searchable (a : BumpAllocator) (m : Machine) : Prop where
  addressable : m.retypeMap.length * frameSize < 2 ^ 52
  cursor : a.index ≤ m.retypeMap.length

section Frames

variable {env : Env} {a a' : BumpAllocator} {m mc : Machine} {f : RawFrame} {index n : Nat}

theorem Machine.mem_freeFrom :
    n ∈ m.freeFrom index ↔ index ≤ n ∧ m.typing n = some (.untyped, 0) := by
  unfold Machine.freeFrom
  rw [Finset.mem_filter, Finset.mem_range]
  exact ⟨fun h => h.2, fun h => ⟨Machine.lt_length_of_typing h.2, h⟩⟩

/-- A claimed frame is free no more. -/
theorem BumpAllocator.Claimed.freeFrom (hc : Claimed .kernel m f mc) (index : Nat) :
    mc.freeFrom index = (m.freeFrom index).erase f.number := by
  ext n
  rw [Finset.mem_erase, Machine.mem_freeFrom, Machine.mem_freeFrom]
  by_cases hn : n = f.number
  · subst hn
    simp [hc.typing_self]
  · simp [hc.typing_ne hn, hn]

theorem BumpAllocator.Claimed.length_eq (hc : Claimed .kernel m f mc) :
    mc.retypeMap.length = m.retypeMap.length := by
  obtain ⟨e, e', _, _, _, rfl⟩ := hc.entries
  exact List.length_set

theorem allocKernelFrame_answers (env : Env) (h : Searchable a m) :
    wp (a.allocKernelFrame env)
      (Answer (· = (.untyped, 0)) KernelFrame.frame (fun k m' => Claimed .kernel m k.frame m') m
        a.index) (fun _ _ => False) m :=
  BumpAllocator.alloc_answers env BumpAllocator.decides_kernel h.addressable a h.cursor

theorem freeFrom_of_none {m' : Machine} (h : Searchable a m)
    (halloc : a.allocKernelFrame env m = .ok (none, a') m') : m.freeFrom a.index = ∅ := by
  obtain ⟨_, _, hnone⟩ := wp_ok (allocKernelFrame_answers env h) halloc
  refine Finset.eq_empty_of_forall_notMem fun n hn => ?_
  obtain ⟨hle, hfree⟩ := Machine.mem_freeFrom.mp hn
  exact hnone n _ hle hfree rfl

/-- The search takes one free frame and skips none. -/
theorem freeFrom_of_some (h : Searchable a m)
    (halloc : a.allocKernelFrame env m = .ok (some ⟨f⟩, a') mc) :
    Searchable a' mc ∧ f.number ∈ m.freeFrom a.index ∧
      mc.freeFrom a'.index = (m.freeFrom a.index).erase f.number := by
  obtain ⟨hfirst, hcursor, hc⟩ := wp_ok (allocKernelFrame_answers env h) halloc
  have hfree : m.typing f.number = some (.untyped, 0) := hc.was_untyped
  have hskip : m.freeFrom f.number = m.freeFrom a.index := by
    ext n
    rw [Machine.mem_freeFrom, Machine.mem_freeFrom]
    refine ⟨fun hn => ⟨hfirst.le.trans hn.1, hn.2⟩, fun hn => ⟨?_, hn.2⟩⟩
    by_contra hlt
    exact hfirst.least n _ hn.1 (Nat.lt_of_not_le hlt) hn.2 rfl
  have hcursor : a'.index = f.number := hcursor
  refine ⟨⟨?_, ?_⟩, Machine.mem_freeFrom.mpr ⟨hfirst.le, hfree⟩, ?_⟩
  · rw [hc.length_eq]
    exact h.addressable
  · rw [hcursor, hc.length_eq]
    exact (Machine.lt_length_of_typing hfree).le
  · rw [hcursor, hc.freeFrom, hskip]

end Frames

/-! ## The way down -/

/-- What is left of the free frames once `made` of those from the cursor of `a` on became tables. -/
structure Stock (a : BumpAllocator) (m : Machine) (made : Nat) (s : Spot) : Prop where
  searchable : Searchable s.allocator s.machine
  skipped : s.machine.freeFrom s.allocator.index = s.machine.freeFrom a.index
  count : (m.freeFrom a.index).card = (s.machine.freeFrom a.index).card + made

/-- **What a point of the way knows**: no table was made and the rest of the walk is still ahead, or
the walk ended above and the tables from there on are new and empty. -/
inductive Progress (page : Page) (root : Nat) (a : BumpAllocator) (m : Machine) (s : Spot) : Prop
  | asBefore {ks : List (Fin 512)} (hm : s.machine = m) (ha : s.allocator = a)
      (hks : ks ++ page.keysFrom s.level = page.keys) (hn : OpenTable root m.mem ks s.table)
      (hwalk : walkEnd m.mem page s.level s.table = walkEnd m.mem page 4 root)
  | built {top : Nat} (hwalk : walkEnd m.mem page 4 root = .missing top) (hlevel : s.level < top)
      (hlen : s.machine.retypeMap.length = m.retypeMap.length)
      (hempty : ∀ k, entryOf s.machine.mem s.table k = none)
      (htyped : ∃ c, s.machine.typing s.table = some (.kernel, c))
      (hstock : Searchable a m → Stock a m (top - s.level) s)

section Progress

variable {env : Env} {page : Page} {frame : RawFrame} {flags parent : PageTableFlags} {root : Nat}
  {a : BumpAllocator} {m m' : Machine} {s t : Spot}

theorem Stock.refl (h : Searchable a m) (level n : Nat) : Stock a m 0 ⟨level, n, a, m⟩ :=
  ⟨h, rfl, rfl⟩

/-- One table more. -/
theorem Stock.build {made lower n : Nat} {b b' : BumpAllocator} {m₁ mc : Machine} {f : RawFrame}
    {k : Fin 512} (h : Stock a m made ⟨lower + 1, n, b, m₁⟩)
    (halloc : b.allocKernelFrame env m₁ = .ok (some ⟨f⟩, b') mc)
    (hc : Claimed .kernel m₁ f mc) :
    Stock a m (made + 1) ⟨lower, f.number, b', withTable mc f parent n k⟩ := by
  obtain ⟨hs, hmem, herase⟩ := freeFrom_of_some h.searchable halloc
  have hskip : m₁.freeFrom b.index = m₁.freeFrom a.index := h.skipped
  have hafter : mc.freeFrom a.index = (m₁.freeFrom a.index).erase f.number := hc.freeFrom a.index
  refine ⟨⟨hs.addressable, hs.cursor⟩, ?_, ?_⟩
  · change mc.freeFrom b'.index = mc.freeFrom a.index
    rw [herase, hskip, hafter]
  · change _ = (mc.freeFrom a.index).card + (made + 1)
    have hcount : (m.freeFrom a.index).card = (m₁.freeFrom a.index).card + made := h.count
    rw [hskip] at hmem
    have hcard := Finset.card_erase_add_one hmem
    rw [hafter]
    omega

/-- A new table is what `Progress` says of one. -/
theorem Progress.of_build {top lower n made : Nat} {b b' : BumpAllocator} {m₁ mc : Machine}
    {f : RawFrame} {k : Fin 512} (hwalk : walkEnd m.mem page 4 root = .missing top)
    (hlevel : lower < top) (hlen : m₁.retypeMap.length = m.retypeMap.length)
    (hn : ∃ c, m₁.typing n = some (.kernel, c)) (hmade : made + 1 = top - lower)
    (hstock : Searchable a m → Stock a m made ⟨lower + 1, n, b, m₁⟩)
    (halloc : b.allocKernelFrame env m₁ = .ok (some ⟨f⟩, b') mc)
    (hc : Claimed .kernel m₁ f mc) :
    Progress page root a m ⟨lower, f.number, b', withTable mc f parent n k⟩ := by
  obtain ⟨c, hty⟩ := hn
  refine .built hwalk hlevel (hc.length_eq.trans hlen)
    (entryOf_withTable_empty (hc.ne_of_typed hty)) ⟨1, hc.typing_self⟩ fun h => ?_
  rw [← hmade]
  exact (hstock h).build halloc hc

/-- **One level down.** -/
theorem Progress.down (hT : Tabled root m) (h : Progress page root a m s)
    (hd : Down env page parent s t) : Progress page root a m t := by
  cases hd with
  | follow hl he hhuge =>
    cases h with
    | asBefore hm ha hks hn hwalk =>
      obtain rfl : _ = m := hm
      obtain ⟨hks', hn'⟩ := OpenTable.next hl hks hn he hhuge
      exact .asBefore rfl ha hks' hn' ((walkEnd_follow hl he hhuge).symm.trans hwalk)
    | built hwalk hlevel hlen hempty htyped hstock =>
      rw [show _ = none from hempty _] at he
      cases he
  | build hl he halloc hc =>
    cases h with
    | asBefore hm ha hks hn hwalk =>
      obtain rfl : _ = m := hm
      obtain rfl : _ = a := ha
      exact .of_build (hwalk.symm.trans (walkEnd_of_none he)) (Nat.lt_succ_self _) rfl
        (hT.typed _ _ hn) (by omega) (fun h => Stock.refl h _ _) halloc hc
    | built hwalk hlevel hlen hempty htyped hstock =>
      have hlevel : _ + 1 < _ := hlevel
      exact .of_build hwalk (by omega) hlen htyped (by simp only; omega) hstock halloc hc

theorem Progress.descent (hT : Tabled root m) (h : Progress page root a m s)
    (hd : Descent env page parent s t) : Progress page root a m t := by
  induction hd with
  | refl => exact h
  | tail _ hdown ih => exact ih.down hT hdown

/-- The walk ended at an empty entry where the way meets one. -/
theorem Progress.missing (h : Progress page root a m s) (hl : 0 < s.level)
    (he : s.entry page = none) :
    ∃ top, s.level ≤ top ∧ walkEnd m.mem page 4 root = .missing top ∧
      (Searchable a m → Stock a m (top - s.level) s) := by
  obtain ⟨level, n, b, m₁⟩ := s
  obtain ⟨lower, rfl⟩ := Nat.exists_eq_succ_of_ne_zero (Nat.ne_of_gt hl)
  cases h with
  | asBefore hm ha hks hn hwalk =>
    obtain rfl : m₁ = m := hm
    obtain rfl : b = a := ha
    refine ⟨lower + 1, le_rfl, hwalk.symm.trans (walkEnd_of_none he), fun h => ?_⟩
    rw [Nat.sub_self]
    exact Stock.refl h _ _
  | built hwalk hlevel hlen hempty htyped hstock => exact ⟨_, Nat.le_of_lt hlevel, hwalk, hstock⟩

/-- Where the way meets an entry, no table was made. -/
theorem Progress.met (h : Progress page root a m s) {e : Mapping} (he : s.entry page = some e) :
    s.machine = m ∧ s.allocator = a ∧
      walkEnd m.mem page s.level s.table = walkEnd m.mem page 4 root ∧
      ∃ ks, ks ++ page.keysFrom s.level = page.keys ∧ OpenTable root m.mem ks s.table := by
  cases h with
  | asBefore hm ha hks hn hwalk => exact ⟨hm, ha, hwalk, _, hks, hn⟩
  | built hwalk hlevel hlen hempty htyped hstock =>
    rw [show s.entry page = none from hempty _] at he
    cases he

theorem Progress.length_eq (h : Progress page root a m s) :
    s.machine.retypeMap.length = m.retypeMap.length := by
  cases h with
  | asBefore hm ha hks hn hwalk => rw [hm]
  | built hwalk hlevel hlen hempty htyped hstock => exact hlen

/-! ## How the call ends -/

/-- What the result says about the walk and the frames. -/
def Verdict (page : Page) (root : Nat) (a : BumpAllocator) (m : Machine)
    (r : Except MapperError Unit × BumpAllocator) (m' : Machine) : Prop :=
  match r.1 with
  | .ok () => ∃ top, walkEnd m.mem page 4 root = .missing top
  | .error (.alreadyMapped f) =>
    (∃ entryFlags, walkEnd m.mem page 4 root = .mapped (f, entryFlags)) ∧ m' = m ∧ r.2 = a
  | .error .hugeParentEntry =>
    (∃ level e, walkEnd m.mem page 4 root = .huge level e) ∧ m' = m ∧ r.2 = a
  | .error .frameAllocationError =>
    ∃ top, 1 < top ∧ walkEnd m.mem page 4 root = .missing top ∧
      m'.retypeMap.length = m.retypeMap.length ∧
      (Searchable a m → (m.freeFrom a.index).card < top - 1 ∧ m'.freeFrom a.index = ∅)

/-- **The end of the way is the end of the walk.** -/
theorem Progress.verdict (h : Progress page root a m s)
    {r : Except MapperError Unit × BumpAllocator} (hend : Halt env page frame flags s r m') :
    Verdict page root a m r m' := by
  cases hend with
  | @mapped e hl he =>
    obtain ⟨hm, ha, hwalk, _⟩ := h.met he
    unfold Spot.entry at he
    rw [hm, hl] at he
    rw [hl] at hwalk
    exact ⟨⟨e.2, hwalk.symm.trans (walkEnd_bottom he)⟩, hm, ha⟩
  | @huge e hl he hhuge =>
    obtain ⟨hm, ha, hwalk, _⟩ := h.met he
    obtain ⟨lower, hlevel⟩ := Nat.exists_eq_succ_of_ne_zero (Nat.ne_zero_of_lt hl)
    unfold Spot.entry at he
    rw [hm, hlevel] at he
    rw [hlevel] at hwalk
    exact ⟨⟨lower + 1, e, hwalk.symm.trans (walkEnd_of_huge (by omega) he hhuge)⟩, hm, ha⟩
  | exhausted hl he halloc =>
    obtain ⟨top, hle, hwalk, hstock⟩ := h.missing (by omega) he
    refine ⟨top, by omega, hwalk, h.length_eq, fun hs => ?_⟩
    have hst := hstock hs
    have hempty := freeFrom_of_none hst.searchable halloc
    rw [hst.skipped] at hempty
    have hcount := hst.count
    rw [hempty, Finset.card_empty] at hcount
    exact ⟨by omega, hempty⟩
  | written hl he =>
    obtain ⟨top, _, hwalk, _⟩ := h.missing (by omega) he
    exact ⟨top, hwalk⟩

/-- A frame of the retype table lies outside the direct map. -/
def Uncovered (env : Env) (m : Machine) : Prop :=
  ∃ n < m.retypeMap.length, 2 ^ 64 ≤ env.pmo + n * frameSize

theorem RawFrame.unmapped_of_ptr {f : RawFrame} {p : Panic} (hf : f.Aligned)
    (h : f.ptr env = .error p) : 2 ^ 64 ≤ env.pmo + f.number * frameSize := by
  by_contra hlt
  rw [← hf.base_eq] at hlt
  have hmapped : f.Mapped env := Nat.lt_of_not_le hlt
  obtain ⟨v, hv, haddr⟩ := RawFrame.toVirtual_of_mapped hmapped
  unfold RawFrame.ptr directMap at h
  rw [hv] at h
  simp only [haddr, Nat.le_add_right, if_true] at h
  cases h

/-- The direct map is 128 TiB, so where it covers the retype table the search is exact. -/
theorem searchable_of_covered (hcov : ¬ Uncovered env m) (ha : a.index ≤ m.retypeMap.length) :
    Searchable a m := by
  refine ⟨?_, ha⟩
  cases hlen : m.retypeMap.length with
  | zero => decide
  | succ last =>
    have hlast : ¬ 2 ^ 64 ≤ env.pmo + last * frameSize := fun hge => hcov ⟨last, by omega, hge⟩
    have hpmo := env.pmo_high
    simp only [frameSize] at hlast ⊢
    omega

/-- **When the call panics**: a frame of the retype table is not mapped, or the cursor is past the
table when a frame is asked for. -/
theorem Progress.panics (hT : Tabled root m) (h : Progress page root a m s)
    (hp : Panics env page s m') :
    Uncovered env m ∨ (m.retypeMap.length < a.index ∧
      ∃ top, 1 < top ∧ walkEnd m.mem page 4 root = .missing top) := by
  cases hp with
  | @follow e p hl he hhuge hptr =>
    obtain ⟨hm, _, _, ks, hks, hn⟩ := h.met he
    obtain ⟨lower, hlevel⟩ := Nat.exists_eq_succ_of_ne_zero (Nat.ne_zero_of_lt hl)
    unfold Spot.entry at he
    rw [hm, hlevel] at he
    rw [hlevel] at hks
    obtain ⟨_, hnext⟩ := OpenTable.next (by omega) hks hn he hhuge
    exact Or.inl ⟨_, hT.lt_length hnext, RawFrame.unmapped_of_ptr (entryOf_aligned he) hptr⟩
  | alloc hl he halloc =>
    obtain ⟨top, hle, hwalk, hstock⟩ := h.missing (by omega) he
    by_cases hcov : Uncovered env m
    · exact Or.inl hcov
    · refine Or.inr ⟨?_, top, by omega, hwalk⟩
      by_contra hcursor
      have hs := (hstock (searchable_of_covered hcov (Nat.le_of_not_lt hcursor))).searchable
      have hans := allocKernelFrame_answers env hs
      unfold wp at hans
      rw [halloc] at hans
      exact hans
  | @build f a' mc p hl he halloc hc hptr =>
    have hlt := Machine.lt_length_of_typing hc.was_untyped
    rw [h.length_eq] at hlt
    exact Or.inl ⟨f.number, hlt, RawFrame.unmapped_of_ptr hc.aligned hptr⟩

end Progress

/-! ## The tables left behind -/

section Behind

variable {env : Env} {page : Page} {frame : RawFrame} {flags parent : PageTableFlags} {root : Nat}
  {m m' : Machine} {s t : Spot}

/-- A point on the page's way down the open tree. -/
structure OnOpenWay (root : Nat) (page : Page) (s : Spot) : Prop where
  tabled : Tabled root s.machine
  path : ∃ ks, ks ++ page.keysFrom s.level = page.keys ∧ OpenTable root s.machine.mem ks s.table

theorem Down.onOpenWay (hparent : parent.contains .hugePage = false) (h : OnOpenWay root page s)
    (hd : Down env page parent s t) :
    OnOpenWay root page t ∧ OpenGrown root s.machine t.machine := by
  obtain ⟨hT, ks, hks, hn⟩ := h
  cases hd with
  | follow hl he hhuge =>
    obtain ⟨hks', hn'⟩ := OpenTable.next hl hks hn he hhuge
    exact ⟨⟨hT, _, hks', hn'⟩, OpenGrown.refl hT⟩
  | build hl he halloc hc =>
    obtain ⟨hks', _, hin⟩ := Page.open_step hl hks
    have hg := withTable_openGrown hparent hT hc hn hin he
    have hgraft := withTable_openGraft hparent hT hc hn hin he
    exact ⟨⟨hg.tabled, _, hks', (hgraft.node_iff hT.tree).mpr (Or.inr ⟨rfl, rfl⟩)⟩, hg⟩

theorem Descent.onOpenWay (hparent : parent.contains .hugePage = false)
    (h : OnOpenWay root page s) (hd : Descent env page parent s t) :
    OnOpenWay root page t ∧ OpenGrown root s.machine t.machine := by
  induction hd with
  | refl => exact ⟨h, OpenGrown.refl h.tabled⟩
  | tail _ hdown ih =>
    obtain ⟨hway, hg⟩ := ih
    obtain ⟨hway', hg'⟩ := hdown.onOpenWay hparent hway
    exact ⟨hway', hg.trans hg'⟩

/-- A call that finds no frame stops where it is. -/
theorem Halt.machine_eq {r : Except MapperError Unit × BumpAllocator}
    (hend : Halt env page frame flags s r m') (hr : r.1 = .error .frameAllocationError) :
    m' = s.machine := by
  cases hend with
  | mapped hl he => cases hr
  | huge hl he hhuge => cases hr
  | exhausted hl he halloc => rfl
  | written hl he => cases hr

end Behind

/-! ## The call -/

section Call

variable {env : Env} {page : Page} {frame : RawFrame} {flags parent : PageTableFlags} {root : Nat}
  {a : BumpAllocator} {m : Machine}

theorem Tabled.noted {e : Event} (h : Tabled root m) : Tabled root (m.noted e) :=
  ⟨h.tree, h.typed⟩

theorem Progress.start (page : Page) (root : Nat) (a : BumpAllocator) (m : Machine) :
    Progress page root a m ⟨4, root, a, m⟩ :=
  .asBefore rfl rfl (List.nil_append _) (Radix.node_root (by decide)) rfl

theorem walkEnd_le {mem : Mem} {level n top : Nat} (h : walkEnd mem page level n = .missing top) :
    top ≤ level := by
  induction level generalizing n with
  | zero => exact (WalkEnd.missing.inj h).ge
  | succ lower ih =>
    unfold walkEnd at h
    split at h
    · exact (WalkEnd.missing.inj h).ge
    · split at h
      · cases h
      · split at h
        · cases h
        · exact (ih h).trans (Nat.le_succ lower)

/-- The call, by its verdict. -/
theorem mapTo_verdict (env : Env) (page : Page) (frame : RawFrame) (flags parent : PageTableFlags)
    (hT : Tabled root m) (a : BumpAllocator) :
    wp (mapTo env page frame flags parent (root * frameSize) a)
      (fun r m' => Verdict page root a (m.noted (.mapTo page)) r m' ∧
        (parent.contains .hugePage = false → r.1 = .error .frameAllocationError →
          OpenGrown root (m.noted (.mapTo page)) m'))
      (fun _ _ => Uncovered env m ∨ (m.retypeMap.length < a.index ∧
        ∃ top, 1 < top ∧ walkEnd m.mem page 4 root = .missing top)) m := by
  have hT' := hT.noted (e := .mapTo page)
  refine wp_mono (mapTo_descends env page frame flags parent root a m) ?_ ?_
  · rintro r m' ⟨s, hs, hend⟩
    refine ⟨((Progress.start page root a _).descent hT' hs).verdict hend, fun hparent hr => ?_⟩
    have hway := Descent.onOpenWay hparent ⟨hT', [], rfl, Radix.node_root (by decide)⟩ hs
    rw [hend.machine_eq hr]
    exact hway.2
  · rintro _ m' ⟨s, hs, hp⟩
    have hpanic := ((Progress.start page root a _).descent hT' hs).panics hT' hp
    exact hpanic

/-- **With frames enough for the missing tables the call returns `Ok`.** -/
theorem mapTo_of_enough (hT : Tabled root m) (hcov : ¬ Uncovered env m)
    (ha : a.index ≤ m.retypeMap.length) {top : Nat}
    (hwalk : walkEnd m.mem page 4 root = .missing top)
    (hfree : top - 1 ≤ (m.freeFrom a.index).card) :
    ∃ a' m', mapTo env page frame flags parent (root * frameSize) a m = .ok (.ok (), a') m' := by
  have hwp := mapTo_verdict env page frame flags parent hT a
  obtain ⟨⟨r, a'⟩, m', hrun, hv, _⟩ := exists_of_wp (wp_mono hwp (fun _ _ h => h) fun _ _ h =>
    h.elim hcov fun h => absurd ha (Nat.not_le_of_lt h.1))
  have hwalk' : walkEnd (m.noted (.mapTo page)).mem page 4 root = .missing top := hwalk
  unfold Verdict at hv
  match r, hv with
  | .ok (), _ => exact ⟨a', m', hrun⟩
  | .error (.alreadyMapped f), ⟨⟨_, h⟩, _⟩ => cases hwalk'.symm.trans h
  | .error .hugeParentEntry, ⟨⟨_, _, h⟩, _⟩ => cases hwalk'.symm.trans h
  | .error .frameAllocationError, ⟨top', _, h, _, hs⟩ =>
    obtain rfl := WalkEnd.missing.inj (hwalk'.symm.trans h)
    have hlt := (hs (searchable_of_covered hcov ha)).1
    exact absurd hfree (Nat.not_le_of_lt hlt)

end Call

/-! ## Failing cleanly -/

/-- What the call says when it fails, and what it leaves. -/
structure FailsCleanly (env : Env) (page : Page) (frame : RawFrame) (flags parent : PageTableFlags)
    (l4 : RawFrame) (a : BumpAllocator) (m : Machine)
    (r : Except MapperError Unit × BumpAllocator) (m' : Machine) : Prop where
  alreadyMapped_iff : ∀ f, r.1 = .error (.alreadyMapped f) ↔
    ∃ entryFlags, walkOf m.mem l4 page = .mapped (f, entryFlags)
  huge_iff : r.1 = .error .hugeParentEntry ↔ ∃ level e, walkOf m.mem l4 page = .huge level e
  /-- An entry that is in the way leaves everything as it was. -/
  unchanged : (∃ f, r.1 = .error (.alreadyMapped f)) ∨ r.1 = .error .hugeParentEntry →
    m' = m.noted (.mapTo page) ∧ r.2 = a
  /-- No frame is found only where a table is missing and no frame from the cursor on is free. -/
  exhausted : r.1 = .error .frameAllocationError →
    (∃ top, 1 < top ∧ walkOf m.mem l4 page = .missing top) ∧
      (m.retypeMap.length * frameSize < 2 ^ 52 →
        ∀ n, a.index ≤ n → m'.typing n ≠ some (.untyped, 0))
  walks : parent.contains .hugePage = false → r.1 = .error .frameAllocationError →
    ∀ q, (walkOf m'.mem l4 q).gives = (walkOf m.mem l4 q).gives
  taken : parent.contains .hugePage = false → r.1 = .error .frameAllocationError →
    ∀ n, m'.typing n ≠ m.typing n → m.typing n = some (.untyped, 0) ∧
      m'.typing n = some (.kernel, 1) ∧ LinkedOnce l4 m'.mem n
  /-- The call succeeds on the tables it left, once there are frames for those still missing. -/
  retry : parent.contains .hugePage = false → r.1 = .error .frameAllocationError →
    ∃ top ≤ 4, walkOf m'.mem l4 page = .missing top ∧
      ∀ (b : BumpAllocator) (m₂ : Machine), m₂.mem = m'.mem → Tabled l4.number m₂ →
        ¬ Uncovered env m₂ → b.index ≤ m₂.retypeMap.length →
        top - 1 ≤ (m₂.freeFrom b.index).card →
        ∃ b' m₃, mapTo env page frame flags parent l4.base.addr b m₂ = .ok (.ok (), b') m₃

section Clean

variable {env : Env} {page : Page} {frame : RawFrame} {flags parent : PageTableFlags}
  {l4 : RawFrame} {a : BumpAllocator} {m m' : Machine}

theorem OpenGrown.linkedOnce (h : OpenGrown l4.number m m') {n : Nat}
    (hn : m'.typing n ≠ m.typing n) : m.typing n = some (.untyped, 0) ∧
      m'.typing n = some (.kernel, 1) ∧ LinkedOnce l4 m'.mem n := by
  rcases h.retyped n with heq | ⟨hu, hk, ks, p, k, e, hl, he⟩
  · exact absurd heq hn
  · refine ⟨hu, hk, ks, p, k, e, hl, he, fun ks' p' k' e' hl' he' => ?_⟩
    exact h.grows.tree.link_unique _ _ _ _ _ _ _ _ hl' hl (he'.trans he.symm)

theorem WalkEnd.missing_of_gives {w : WalkEnd} (h : w.gives = none) : ∃ top, w = .missing top := by
  cases w with
  | missing top => exact ⟨top, rfl⟩
  | huge level e => cases h
  | mapped e => cases h

/-- The walk decides between the errors that leave everything as it was and the other results. -/
theorem Verdict.cases {r : Except MapperError Unit × BumpAllocator}
    (hv : Verdict page l4.number a (m.noted (.mapTo page)) r m') :
    ((∃ top, walkOf m.mem l4 page = .missing top) ∧
        (r.1 = .ok () ∨ r.1 = .error .frameAllocationError)) ∨
      (∃ level e, walkOf m.mem l4 page = .huge level e ∧ r = (.error .hugeParentEntry, a) ∧
        m' = m.noted (.mapTo page)) ∨
      ∃ e, walkOf m.mem l4 page = .mapped e ∧ r = (.error (.alreadyMapped e.1), a) ∧
        m' = m.noted (.mapTo page) := by
  unfold Verdict at hv
  obtain ⟨r, a'⟩ := r
  match r, hv with
  | .ok (), hw => exact Or.inl ⟨hw, Or.inl rfl⟩
  | .error .frameAllocationError, ⟨top, _, hw, _⟩ => exact Or.inl ⟨⟨top, hw⟩, Or.inr rfl⟩
  | .error .hugeParentEntry, ⟨⟨level, e, hw⟩, hm, ha⟩ =>
    obtain rfl : a' = a := ha
    exact Or.inr (Or.inl ⟨level, e, hw, rfl, hm⟩)
  | .error (.alreadyMapped f), ⟨⟨entryFlags, hw⟩, hm, ha⟩ =>
    obtain rfl : a' = a := ha
    exact Or.inr (Or.inr ⟨(f, entryFlags), hw, rfl, hm⟩)

theorem Verdict.exhausted {r : Except MapperError Unit × BumpAllocator}
    (hv : Verdict page l4.number a (m.noted (.mapTo page)) r m')
    (hr : r.1 = .error .frameAllocationError) :
    ∃ top, 1 < top ∧ walkOf m.mem l4 page = .missing top ∧
      m'.retypeMap.length = m.retypeMap.length ∧ (Searchable a m → m'.freeFrom a.index = ∅) := by
  unfold Verdict at hv
  rw [hr] at hv
  obtain ⟨top, htop, hw, hlen, hfree⟩ := hv
  exact ⟨top, htop, hw, hlen, fun hs => (hfree ⟨hs.addressable, hs.cursor⟩).2⟩

/-- **`map_to` fails cleanly.** It reports `AlreadyMapped` and `HugeParentEntry` exactly where the
walk ends in a page or a huge page, and then changes nothing. It runs out of frames only where a
table is missing and no frame is left from the cursor on; unless `parent_flags` has `HUGE_PAGE`,
the tables made by then give no page anything, hang in the tree once each, and serve a retry. It
panics only where a frame of the retype table is outside the direct map, or the cursor is past the
table. -/
theorem map_to_fails_cleanly (env : Env) (page : Page) (frame : RawFrame)
    (flags parentFlags : PageTableFlags) (l4 : RawFrame) (a : BumpAllocator) (m : Machine)
    (hl4 : l4.Aligned) (hT : Tabled l4.number m) :
    wp (mapTo env page frame flags parentFlags l4.base.addr a)
      (FailsCleanly env page frame flags parentFlags l4 a m)
      (fun _ _ => Uncovered env m ∨ (m.retypeMap.length < a.index ∧
        ∃ top, 1 < top ∧ walkOf m.mem l4 page = .missing top)) m := by
  rw [hl4.base_eq]
  refine wp_mono (mapTo_verdict env page frame flags parentFlags hT a) ?_ (fun _ _ h => h)
  rintro r m' ⟨hv, hgrown⟩
  refine ⟨fun f => ?_, ?_, ?_, fun hr => ?_, fun hp hr q => ?_, fun hp hr n hn => ?_,
    fun hp hr => ?_⟩
  · rcases hv.cases with ⟨⟨top, hw⟩, hr | hr⟩ | ⟨level, e, hw, rfl, _⟩ | ⟨e, hw, rfl, _⟩
    · simp [hw, hr]
    · simp [hw, hr]
    · simp [hw]
    · simp [hw, Prod.ext_iff]
  · rcases hv.cases with ⟨⟨top, hw⟩, hr | hr⟩ | ⟨level, e, hw, rfl, _⟩ | ⟨e, hw, rfl, _⟩
    · simp [hw, hr]
    · simp [hw, hr]
    · simp [hw]
    · simp [hw]
  · rcases hv.cases with ⟨_, hr | hr⟩ | ⟨_, _, _, rfl, hm⟩ | ⟨_, _, rfl, hm⟩
    · simp [hr]
    · simp [hr]
    · exact fun _ => ⟨hm, rfl⟩
    · exact fun _ => ⟨hm, rfl⟩
  · obtain ⟨top, htop, hw, hlen', hfree⟩ := hv.exhausted hr
    refine ⟨⟨top, htop, hw⟩, fun hlen n hn hty => ?_⟩
    have hin := Machine.lt_length_of_typing hty
    have hempty := hfree ⟨hlen, by omega⟩
    exact Finset.notMem_empty n (hempty ▸ Machine.mem_freeFrom.mpr ⟨hn, hty⟩)
  · exact (hgrown hp hr).walks q
  · exact (hgrown hp hr).linkedOnce hn
  · have hg := hgrown hp hr
    obtain ⟨_, _, hw, _⟩ := hv.exhausted hr
    have hgives : (walkOf m'.mem l4 page).gives = none :=
      (hg.walks page).trans (congrArg WalkEnd.gives hw)
    obtain ⟨top, htop⟩ := WalkEnd.missing_of_gives hgives
    refine ⟨top, walkEnd_le htop, htop, fun b m₂ hmem hT₂ hcov hb hfree => ?_⟩
    rw [← hmem] at htop
    rw [hl4.base_eq]
    exact mapTo_of_enough hT₂ hcov hb htop hfree

end Clean

/-- An empty L4 table in frame 1, and one frame for the tables below it. -/
def oneLeft : Machine where
  mem _ := 0
  retypeMap := [.unavailable, .kernel 1 RetypeEntry.one_le_maxRefCount, .untyped]
  cr3 := frameOne
  trace := []

theorem oneLeft_tabled : Tabled frameOne.number oneLeft := by
  have hempty : ∀ k, True → openEntry oneLeft.mem frameOne.number k = none :=
    fun _ _ => openEntry_of_none (PageTableEntry.decode_eq_none.mpr wordOf_zero)
  refine ⟨Radix.tree_of_empty hempty, fun ks n hn => ?_⟩
  obtain ⟨_, rfl⟩ := hn.of_empty hempty
  exact ⟨1, rfl⟩

/-- With one frame for three tables the call fails, and no walk has changed. -/
theorem map_to_fails_cleanly_oneLeft :
    ∃ a' m', mapTo Env.dev pageZero frameOne .present .writable frameOne.base.addr .new oneLeft =
      .ok (.error .frameAllocationError, a') m' ∧
      ∀ q, (walkOf m'.mem frameOne q).gives = (walkOf oneLeft.mem frameOne q).gives := by
  have hrun : ∃ a' m', mapTo Env.dev pageZero frameOne .present .writable frameOne.base.addr .new
      oneLeft = .ok (.error .frameAllocationError, a') m' := ⟨_, _, by with_unfolding_all rfl⟩
  obtain ⟨a', m', hrun⟩ := hrun
  have hal : frameOne.Aligned := rfl
  have hclean := wp_ok (map_to_fails_cleanly Env.dev pageZero frameOne .present .writable frameOne
    .new oneLeft hal oneLeft_tabled) hrun
  exact ⟨a', m', hrun, hclean.walks rfl rfl⟩

/-- Called with `HUGE_PAGE` among its parent flags, the call that runs out of frames leaves a huge
page in the way: of the walk, and of every retry. -/
theorem map_to_fails_huge :
    Tabled frameOne.number oneLeft ∧ ∃ a' m',
      mapTo Env.dev pageZero frameOne .present .hugePage frameOne.base.addr .new oneLeft =
        .ok (.error .frameAllocationError, a') m' ∧
      (walkOf m'.mem frameOne pageZero).gives ≠ (walkOf oneLeft.mem frameOne pageZero).gives ∧
      ∀ b, ∃ m₂, mapTo Env.dev pageZero frameOne .present .hugePage frameOne.base.addr b m' =
        .ok (.error .hugeParentEntry, b) m₂ := by
  refine ⟨oneLeft_tabled, _, finalState (mapTo Env.dev pageZero frameOne .present .hugePage
    frameOne.base.addr .new oneLeft), by with_unfolding_all rfl, by decide +kernel,
    fun b => ⟨_, by with_unfolding_all rfl⟩⟩

end Harmony
