import Harmony.Paging.Descent
import Harmony.Retype.Table

/-!
# `map_to` installs one translation

The way down of `Addrspace::map_to` through a tree of tables: an entry that is there is followed,
an empty entry above level 1 gets a new table (`Grown`), the empty entry at level 1 is written
(`Installed`). A walk that stops early leaves the tables it has made behind; they are empty, so no
translation moves.

* `withTable_grown`, `Down.onWay`: one new table is a graft of the tree.
* `wp_mapToLoop`, `wp_mapTo`: the whole call, with the states a panic can leave.
* `map_to_one_translation`: from a well-formed state, the page translates to the frame and every
  other page as before.
-/

namespace Harmony

open Lib
open BumpAllocator (Claimed)

/-! ## Growing the tables -/

section Grown

variable {scope : Fin 512 → Prop} {root : Nat} {parent : PageTableFlags} {m m' m'' : Machine}

/-- Address `x` lies in an entry of the tree. -/
def InEntry (scope : Fin 512 → Prop) (root : Nat) (mem : Mem) (x : Nat) : Prop :=
  ∃ (ks : List (Fin 512)) (k : Fin 512), TableAt scope root mem ks (x / frameSize) ∧
    Radix.Scoped scope (ks ++ [k]) ∧ (k : Nat) = x % frameSize / 8

/-- What was written lies in a frame that was untyped or in an entry of the tree. -/
def Contained (scope : Fin 512 → Prop) (root : Nat) (m : Machine) (mem' : Mem) : Prop :=
  ∀ x, mem' x = m.mem x ∨ m.typing (x / frameSize) = some (.untyped, 0) ∨
    InEntry scope root m.mem x

/-- `m'` is `m` with new tables under `root`: untyped frames, now kernel frames with the one
reference their entry holds. -/
structure Grown (scope : Fin 512 → Prop) (root : Nat) (parent : PageTableFlags)
    (m m' : Machine) : Prop where
  cr3 : m'.cr3 = m.cr3
  trace : m'.trace = m.trace
  grows : Radix.Grows target (entryOf m.mem) (entryOf m'.mem) root 4 scope
    (fun n => m.typing n = some (.untyped, 0)) (fun e => e.2 = parent.union .present)
  typed : ∀ ks n, TableAt scope root m'.mem ks n → ∃ c, m'.typing n = some (.kernel, c) ∧ c ≠ 0
  retyped : ∀ n, m'.typing n = m.typing n ∨ (m.typing n = some (.untyped, 0) ∧
    m'.typing n = some (.kernel, 1) ∧ ∃ ks p k e, LinkAt scope root m'.mem ks p k e ∧ target e = n)
  contained : Contained scope root m m'.mem
  stale : ∀ x, m'.typing (x / frameSize) = some (.untyped, 0) → m'.mem x = m.mem x

theorem Grown.rooted (h : Grown scope root parent m m') : Rooted scope root m' :=
  ⟨h.grows.tree, h.typed⟩

theorem Grown.refl (h : Rooted scope root m) : Grown scope root parent m m where
  cr3 := rfl
  trace := rfl
  grows := Radix.Grows.refl h.tree
  typed := h.typed
  retyped _ := Or.inl rfl
  contained _ := Or.inl rfl
  stale _ _ := rfl

/-- Frames retyped twice over: who is linked in stays linked in. -/
theorem retyped_trans {n : Nat} {Linked Linked' : Prop}
    (h : m'.typing n = m.typing n ∨
      (m.typing n = some (.untyped, 0) ∧ m'.typing n = some (.kernel, 1) ∧ Linked))
    (h' : m''.typing n = m'.typing n ∨
      (m'.typing n = some (.untyped, 0) ∧ m''.typing n = some (.kernel, 1) ∧ Linked'))
    (hlinked : Linked → Linked') :
    m''.typing n = m.typing n ∨
      (m.typing n = some (.untyped, 0) ∧ m''.typing n = some (.kernel, 1) ∧ Linked') := by
  rcases h with heq | ⟨hu, hk, hl⟩
  · rwa [heq] at h'
  · rcases h' with heq' | ⟨hu', _⟩
    · exact Or.inr ⟨hu, heq'.trans hk, hlinked hl⟩
    · exact absurd (hk.symm.trans hu') (by simp)

/-- A frame that is untyped after growing was untyped before. -/
theorem Grown.untyped (h : Grown scope root parent m m') {n : Nat}
    (hn : m'.typing n = some (.untyped, 0)) : m.typing n = some (.untyped, 0) := by
  rcases h.retyped n with heq | ⟨hu, _⟩
  · exact heq ▸ hn
  · exact hu

/-- Writing into the grown tree stays within the tree and what was untyped. -/
theorem Grown.contained_trans (h : Grown scope root parent m m') {mem : Mem}
    (h' : Contained scope root m' mem) : Contained scope root m mem := by
  intro x
  rcases h' x with heq | hu | ⟨ks, k, hn, hs, hk⟩
  · rcases h.contained x with heq' | hrest
    · exact Or.inl (heq.trans heq')
    · exact Or.inr hrest
  · exact Or.inr (Or.inl (h.untyped hu))
  · rcases h.grows.node_new ks _ hn with hn | hu
    · exact Or.inr (Or.inr ⟨ks, k, hn, hs, hk⟩)
    · exact Or.inr (Or.inl hu)

theorem Grown.trans (h : Grown scope root parent m m') (h' : Grown scope root parent m' m'') :
    Grown scope root parent m m'' where
  cr3 := h'.cr3.trans h.cr3
  trace := h'.trace.trans h.trace
  grows := h.grows.trans h'.grows fun _ hn => h.untyped hn
  typed := h'.typed
  retyped n := by
    refine retyped_trans (h.retyped n) (h'.retyped n) ?_
    rintro ⟨ks, p, k, e, hl, he⟩
    exact ⟨ks, p, k, e, h'.grows.link hl, he⟩
  contained := h.contained_trans h'.contained
  stale x hx := (h'.stale x hx).trans (h.stale x (h'.untyped hx))

/-- A word written to an entry of the tree is contained in it. -/
theorem Contained.store64 {mem : Mem} (h : Contained scope root m mem) {ks : List (Fin 512)}
    {t : Nat} {k : Fin 512} (ht : TableAt scope root m.mem ks t)
    (hs : Radix.Scoped scope (ks ++ [k])) (w : BitVec 64) :
    Contained scope root m (Lib.store64 mem (t * frameSize + 8 * k) w) := by
  intro x
  have hk := k.isLt
  by_cases hx : t * frameSize + 8 * k ≤ x ∧ x < t * frameSize + 8 * k + 8
  · simp only [frameSize] at hx
    have hxt : x / frameSize = t := by simp only [frameSize]; omega
    exact Or.inr (Or.inr ⟨ks, k, hxt.symm ▸ ht, hs, by simp only [frameSize]; omega⟩)
  · have heq : Lib.store64 mem (t * frameSize + 8 * k) w x = mem x := store_apply_of_not_mem hx
    rw [heq]
    exact h x

/-- A frame that was untyped may be written. -/
theorem Contained.store {mem : Mem} (h : Contained scope root m mem) {t : Nat}
    (ht : m.typing t = some (.untyped, 0)) (f : Nat → BitVec 8) :
    Contained scope root m (Lib.store mem (t * frameSize) pageSize f) := by
  intro x
  by_cases hx : t * frameSize ≤ x ∧ x < t * frameSize + pageSize
  · simp only [frameSize, pageSize] at hx
    have hxt : x / frameSize = t := by simp only [frameSize]; omega
    exact Or.inr (Or.inl (hxt.symm ▸ ht))
  · rw [store_apply_of_not_mem hx]
    exact h x

end Grown

/-! ## One level -/

section Level

variable {scope : Fin 512 → Prop} {root : Nat} {m mc : Machine} {f : RawFrame}
  {ks : List (Fin 512)} {n : Nat} {k : Fin 512}

theorem union_present_ne (parent : PageTableFlags) :
    (parent.union .present).bits ≠ 0 := by
  intro h
  have h0 := congrArg (fun w : BitVec 64 => w.getLsbD 0) h
  simp [PageTableFlags.union, PageTableFlags.present] at h0

/-- A frame just claimed is not one of the tables. -/
theorem Rooted.ne_claimed (hR : Rooted scope root m) (hc : Claimed .kernel m f mc)
    {qs : List (Fin 512)} {t : Nat} (ht : TableAt scope root m.mem qs t) : t ≠ f.number :=
  hR.ne_of_typing ht hc.was_untyped (by decide)

theorem entryOf_withTable_written {parent : PageTableFlags} (hc : Claimed .kernel m f mc) :
    entryOf (withTable mc f parent n k).mem n k = some (f, parent.union .present) :=
  (entryOf_store64_self _).trans
    (PageTableEntry.decode_encode hc.aligned (Or.inr (union_present_ne parent)))

theorem entryOf_withTable_empty {parent : PageTableFlags} (hne : n ≠ f.number) (j : Fin 512) :
    entryOf (withTable mc f parent n k).mem f.number j = none :=
  (entryOf_store64_ne _ fun h => hne h.1.symm).trans ((entryOf_store_table _).trans
    (PageTableEntry.decode_eq_none.mpr rfl))

/-- The two stores reach the new table and one entry of the table above it. -/
theorem entryOf_withTable_kept {parent : PageTableFlags} {t : Nat} {j : Fin 512}
    (hc : Claimed .kernel m f mc) (ht : t ≠ f.number) (hne : ¬ (t = n ∧ j = k)) :
    entryOf (withTable mc f parent n k).mem t j = entryOf m.mem t j := by
  refine (entryOf_store64_ne _ hne).trans ((entryOf_store_ne _ ht).trans ?_)
  rw [hc.mem_eq]

/-- The new table is a graft of the tree. -/
theorem withTable_graft (parent : PageTableFlags) (hR : Rooted scope root m)
    (hc : Claimed .kernel m f mc) (hn : TableAt scope root m.mem ks n) (hin : ks.length + 1 < 4)
    (hs : Radix.Scoped scope (ks ++ [k])) (hvac : entryOf m.mem n k = none) :
    Radix.Graft target (entryOf m.mem) (entryOf (withTable mc f parent n k).mem) root 4 scope
      ks n k (f, parent.union .present) f.number where
  node := hn
  inner := hin
  in_scope := hs
  vacant := hvac
  written := entryOf_withTable_written hc
  target := rfl
  fresh _ _ ht := hR.ne_claimed hc ht
  empty j := entryOf_withTable_empty (hR.ne_claimed hc hn) j
  kept _ _ ht _ hne := entryOf_withTable_kept hc (hR.ne_claimed hc ht) hne

/-- **One new table grows the tree.** -/
theorem withTable_grown (parent : PageTableFlags) (hR : Rooted scope root m)
    (hc : Claimed .kernel m f mc) (hn : TableAt scope root m.mem ks n) (hin : ks.length + 1 < 4)
    (hs : Radix.Scoped scope (ks ++ [k])) (hvac : entryOf m.mem n k = none) :
    Grown scope root parent m (withTable mc f parent n k) := by
  have hg := withTable_graft parent hR hc hn hin hs hvac
  have hgrows : Radix.Grows target (entryOf m.mem) (entryOf (withTable mc f parent n k).mem) root 4
      scope (fun n => m.typing n = some (.untyped, 0)) (fun e => e.2 = parent.union .present) :=
    hg.grows hR.tree hc.was_untyped rfl
  have htyped : ∀ qs t, TableAt scope root (withTable mc f parent n k).mem qs t →
      ∃ c, (withTable mc f parent n k).typing t = some (.kernel, c) ∧ c ≠ 0 := by
    intro qs t ht
    rcases (hg.node_iff hR.tree).mp ht with ht | ⟨_, rfl⟩
    · obtain ⟨c, hty, h0⟩ := hR.typed qs t ht
      exact ⟨c, (hc.typing_ne (hR.ne_claimed hc ht)).trans hty, h0⟩
    · exact ⟨1, hc.typing_self, by decide⟩
  refine ⟨hc.cr3_eq, hc.trace_eq, hgrows, htyped, ?_, ?_, ?_⟩
  · intro t
    by_cases ht : t = f.number
    · subst ht
      exact Or.inr ⟨hc.was_untyped, hc.typing_self, ks, n, k, _,
        ⟨hin, hs, hgrows.node hn, hg.written⟩, rfl⟩
    · exact Or.inl (hc.typing_ne ht)
  · have hsame : Contained scope root m mc.mem := fun x => Or.inl (congrFun hc.mem_eq x)
    exact (hsame.store hc.was_untyped _).store64 hn hs _
  · intro x hx
    -- the two stores went to the new table and to the table above it
    have hxf : x / frameSize ≠ f.number := by
      intro h
      have hself := hc.typing_self
      rw [← h, show mc.typing (x / frameSize) = _ from hx] at hself
      exact absurd hself (by simp)
    have hxn : x / frameSize ≠ n := by
      rintro rfl
      obtain ⟨c, hk, _⟩ := htyped ks _ (hgrows.node hn)
      rw [hx] at hk
      exact absurd hk (by simp)
    refine (store64_frame_ne _ hxn).trans ((store_frame_ne _ hxf).trans ?_)
    rw [hc.mem_eq]

end Level

/-! ## The loop -/

section Loop

variable {env : Env} {page : Page} {frame : RawFrame} {flags parent : PageTableFlags}
  {scope : Fin 512 → Prop} {root : Nat} {m : Machine}

/-- The way down to a level is in scope when the page is. -/
theorem scoped_of_keys (h4 : scope (page.key 4)) {ks rest : List (Fin 512)}
    (h : ks ++ rest = page.keys) : Radix.Scoped scope ks := by
  cases ks with
  | nil => trivial
  | cons j js =>
    obtain rfl : j = page.key 4 := (List.cons.inj h).1
    exact h4

/-- The empty entry at level 1 was written. -/
def LeafSet (scope : Fin 512 → Prop) (root : Nat) (page : Page) (frame : RawFrame)
    (flags : PageTableFlags) (m m' : Machine) : Prop :=
  ∃ ks t, ks ++ [page.key 1] = page.keys ∧ TableAt scope root m.mem ks t ∧
    entryOf m.mem t (page.key 1) = none ∧
    m' = m.store64 (t * frameSize + 8 * (page.key 1 : Nat)) (PageTableEntry.encode frame flags)

/-- How a call of `map_to` ends when it returns. -/
def Outcome (scope : Fin 512 → Prop) (root : Nat) (page : Page) (frame : RawFrame)
    (flags parent : PageTableFlags) (m : Machine)
    (r : Except MapperError Unit × BumpAllocator) (m' : Machine) : Prop :=
  match r.1 with
  | .ok () => ∃ m₁, Grown scope root parent m m₁ ∧ LeafSet scope root page frame flags m₁ m'
  | .error _ => Grown scope root parent m m'

/-- The states a panic in `map_to` leaves: new tables, and perhaps a frame claimed for the next. -/
def Stopped (scope : Fin 512 → Prop) (root : Nat) (parent : PageTableFlags) (m m' : Machine) :
    Prop :=
  ∃ m₁, Grown scope root parent m m₁ ∧ (m' = m₁ ∨ ∃ f, Claimed .kernel m₁ f m')

/-- A point on the page's way down a tree. -/
structure OnWay (scope : Fin 512 → Prop) (root : Nat) (page : Page) (s : Spot) : Prop where
  rooted : Rooted scope root s.machine
  path : ∃ ks, ks ++ page.keysFrom s.level = page.keys ∧
    TableAt scope root s.machine.mem ks s.table

/-- The next key on the page's way, above the bottom. -/
theorem Page.keys_step (h4 : scope (page.key 4)) {ks : List (Fin 512)} {lower : Nat}
    (hl : 0 < lower) (hks : ks ++ page.keysFrom (lower + 1) = page.keys) :
    (ks ++ [page.key (lower + 1)]) ++ page.keysFrom lower = page.keys ∧
      Radix.Scoped scope (ks ++ [page.key (lower + 1)]) ∧ ks.length + 1 < 4 := by
  have hks' : (ks ++ [page.key (lower + 1)]) ++ page.keysFrom lower = page.keys := by
    rw [← hks]
    simp [Page.keysFrom]
  refine ⟨hks', scoped_of_keys h4 hks', ?_⟩
  have hlen := congrArg List.length hks'
  rw [List.length_append, Page.length_keysFrom, Page.length_keys] at hlen
  simp only [List.length_append, List.length_singleton] at hlen
  omega

/-- **One level down** stays on the way, and grows the tree by one table at most. -/
theorem Down.onWay (h4 : scope (page.key 4)) {s t : Spot} (h : OnWay scope root page s)
    (hd : Down env page parent s t) :
    OnWay scope root page t ∧ Grown scope root parent s.machine t.machine := by
  obtain ⟨hR, ks, hks, hn⟩ := h
  cases hd with
  | follow hl he hhuge =>
    obtain ⟨hks', hs, hin⟩ := Page.keys_step h4 hl hks
    exact ⟨⟨hR, _, hks', Radix.Link.node ⟨hin, hs, hn, he⟩⟩, Grown.refl hR⟩
  | build hl he halloc hc =>
    obtain ⟨hks', hs, hin⟩ := Page.keys_step h4 hl hks
    have hg := withTable_grown parent hR hc hn hin hs he
    have hgraft := withTable_graft parent hR hc hn hin hs he
    exact ⟨⟨hg.rooted, _, hks', (hgraft.node_iff hR.tree).mpr (Or.inr ⟨rfl, rfl⟩)⟩, hg⟩

theorem Descent.onWay (h4 : scope (page.key 4)) {s t : Spot} (h : OnWay scope root page s)
    (hd : Descent env page parent s t) :
    OnWay scope root page t ∧ Grown scope root parent s.machine t.machine := by
  induction hd with
  | refl => exact ⟨h, Grown.refl h.rooted⟩
  | tail _ hdown ih =>
    obtain ⟨hway, hg⟩ := ih
    obtain ⟨hway', hg'⟩ := hdown.onWay h4 hway
    exact ⟨hway', hg.trans hg'⟩

/-- A call that returns `Ok` has written the empty entry at level 1. -/
theorem Halt.leafSet {s : Spot} {m' : Machine} {r : Except MapperError Unit × BumpAllocator}
    (hend : Halt env page frame flags s r m') (h : OnWay scope root page s) (hr : r.1 = .ok ()) :
    LeafSet scope root page frame flags s.machine m' := by
  cases hend with
  | mapped hl he => cases hr
  | huge hl he hhuge => cases hr
  | exhausted hl he halloc => cases hr
  | written hl he =>
    obtain ⟨ks, hks, hn⟩ := h.path
    unfold Spot.entry at he
    rw [hl] at hks he
    exact ⟨ks, s.table, hks, hn, he, rfl⟩

theorem Halt.outcome {s : Spot} {m' : Machine} {r : Except MapperError Unit × BumpAllocator}
    (hg : Grown scope root parent m s.machine) (h : OnWay scope root page s)
    (hend : Halt env page frame flags s r m') :
    Outcome scope root page frame flags parent m r m' := by
  have hleaf := hend.leafSet h
  cases hend with
  | mapped hl he => exact hg
  | huge hl he hhuge => exact hg
  | exhausted hl he halloc => exact hg
  | written hl he => exact ⟨s.machine, hg, hleaf rfl⟩

/-- **The loop of `map_to`**, on a tree: the table reached so far is the node along the keys already
used. -/
theorem wp_mapToLoop (h4 : scope (page.key 4)) (lower : Nat) :
    ∀ (ks : List (Fin 512)) (n : Nat) (a : BumpAllocator) (m : Machine),
      ks ++ page.keysFrom (lower + 1) = page.keys → Rooted scope root m →
      TableAt scope root m.mem ks n →
      wp (mapToLoop env page frame flags parent (lower + 1) (n * frameSize) a)
        (Outcome scope root page frame flags parent m)
        (fun _ m' => Stopped scope root parent m m') m := by
  intro ks n a m hks hR hn
  have h : OnWay scope root page ⟨lower + 1, n, a, m⟩ := ⟨hR, ks, hks, hn⟩
  refine wp_mono (mapToLoop_descends lower n a m) ?_ ?_
  · rintro r m' ⟨s, hs, hend⟩
    obtain ⟨hway, hg⟩ := hs.onWay h4 h
    exact hend.outcome hg hway
  · rintro _ m' ⟨s, hs, hend⟩
    obtain ⟨_, hg⟩ := hs.onWay h4 h
    cases hend with
    | follow hl he hhuge hptr => exact ⟨s.machine, hg, Or.inl rfl⟩
    | alloc hl he halloc => exact ⟨s.machine, hg, Or.inl rfl⟩
    | build hl he halloc hc hptr => exact ⟨s.machine, hg, Or.inr ⟨_, hc⟩⟩

end Loop

/-! ## The call -/

section Call

variable {env : Env} {page : Page} {frame : RawFrame} {flags parent : PageTableFlags}
  {scope : Fin 512 → Prop} {root : Nat} {m m₁ m' : Machine}

/-- `m'` is `m` with the page mapped to the frame: new tables on the way, and one translation. -/
structure Installed (scope : Fin 512 → Prop) (root : Nat) (page : Page) (frame : RawFrame)
    (flags parent : PageTableFlags) (m m' : Machine) : Prop where
  cr3 : m'.cr3 = m.cr3
  trace : m'.trace = m.trace
  rooted : Rooted scope root m'
  vacant : trailOf m.mem root page.keys = none
  installed : ∃ ps, ps.length = 3 ∧ (∀ e ∈ ps, ∃ ks n k, LinkAt scope root m'.mem ks n k e) ∧
    trailOf m'.mem root page.keys = some (ps ++ [(frame, flags)])
  others : ∀ qs : List (Fin 512), qs.length = 4 → Radix.Scoped scope qs → qs ≠ page.keys →
    trailOf m'.mem root qs = trailOf m.mem root qs
  tables : ∀ ks n, TableAt scope root m'.mem ks n →
    TableAt scope root m.mem ks n ∨ m.typing n = some (.untyped, 0)
  links : ∀ ks n k e, LinkAt scope root m'.mem ks n k e → LinkAt scope root m.mem ks n k e ∨
    (e.2 = parent.union .present ∧ m.typing (target e) = some (.untyped, 0))
  kept : ∀ ks n k e, LinkAt scope root m.mem ks n k e → LinkAt scope root m'.mem ks n k e
  retyped : ∀ n, m'.typing n = m.typing n ∨ (m.typing n = some (.untyped, 0) ∧
    m'.typing n = some (.kernel, 1) ∧ ∃ ks p k e, LinkAt scope root m'.mem ks p k e ∧ target e = n)
  contained : Contained scope root m m'.mem
  stale : ∀ x, m'.typing (x / frameSize) = some (.untyped, 0) → m'.mem x = m.mem x

/-- Writing the leaf is a leaf write of the tree. -/
theorem LeafSet.leafWrite (hframe : frame.Aligned) (hne : frame.base.addr ≠ 0 ∨ flags.bits ≠ 0)
    (h : LeafSet scope root page frame flags m m') :
    ∃ ks t, ks ++ [page.key 1] = page.keys ∧ trailOf m.mem root page.keys = none ∧
      Radix.LeafWrite target (entryOf m.mem) (entryOf m'.mem) root 4 scope ks t (page.key 1)
        (frame, flags) := by
  obtain ⟨ks, t, hks, ht, hvac, rfl⟩ := h
  have hlen : ks.length + 1 = 4 := by
    have := congrArg List.length hks
    rwa [List.length_append, List.length_singleton, Page.length_keys] at this
  refine ⟨ks, t, hks, ?_, ht, hlen, ?_, fun qs n hn j hne' => entryOf_store64_ne _ hne'⟩
  · obtain ⟨_, _, es, htr, hend⟩ := ht
    rw [← hks]
    unfold trailOf
    rw [Radix.trail_concat_of_some _ htr, hend, hvac]
    rfl
  · exact (entryOf_store64_self _).trans (PageTableEntry.decode_encode hframe hne)

/-- **A returned `map_to` has installed its translation.** -/
theorem LeafSet.installed (hframe : frame.Aligned) (hne : frame.base.addr ≠ 0 ∨ flags.bits ≠ 0)
    (h4 : scope (page.key 4)) (hg : Grown scope root parent m m₁)
    (h : LeafSet scope root page frame flags m₁ m') :
    Installed scope root page frame flags parent m m' := by
  obtain ⟨ks, t, hks, hnone, hw⟩ := h.leafWrite hframe hne
  have hT := hg.grows.tree
  have hscope : Radix.Scoped scope page.keys := h4
  obtain ⟨_, _, hks', ht, _, rfl⟩ := h
  refine ⟨hg.cr3, hg.trace, ⟨hw.tree hT, ?_⟩, ?_, ?_, ?_, ?_, ?_, ?_, ?_, ?_, ?_⟩
  · intro qs n hn
    exact hg.typed qs n ((hw.node_iff hT).mp hn)
  · exact (hg.grows.full _ page.length_keys hscope).symm.trans hnone
  · obtain ⟨hlen, hsc, es, htr, _⟩ := hw.node
    have hbot := hw.bottom
    refine ⟨es, by rw [Radix.length_of_trail htr]; omega, fun e he => ?_, ?_⟩
    · obtain ⟨qs, n, k, hl, _⟩ := Radix.links_of_trail hlen hsc htr e he
      exact ⟨qs, n, k, (hw.link_iff hT).mpr hl⟩
    · rw [← hks]
      exact (hw.trail_written hT).trans (by rw [htr]; rfl)
  · intro qs hq hs hne'
    rw [← hks] at hne'
    exact (hw.trail_other hT hq hs hne').trans (hg.grows.full qs hq hs)
  · intro qs n hn
    exact hg.grows.node_new qs n ((hw.node_iff hT).mp hn)
  · intro qs n k e hl
    exact hg.grows.link_new qs n k e ((hw.link_iff hT).mp hl)
  · intro qs n k e hl
    exact (hw.link_iff hT).mpr (hg.grows.link hl)
  · intro n
    refine (hg.retyped n).imp_right ?_
    rintro ⟨hu, hk, qs, p, k, e, hl, he⟩
    exact ⟨hu, hk, qs, p, k, e, (hw.link_iff hT).mpr hl, he⟩
  · refine hg.contained_trans ?_
    have hsame : Contained scope root m₁ m₁.mem := fun _ => Or.inl rfl
    exact hsame.store64 ht (scoped_of_keys h4 ((List.append_nil _).trans hks')) _
  · intro x hx
    have hxt := hg.rooted.ne_of_typing ht hx (by decide)
    exact (store64_frame_ne _ hxt.symm).trans (hg.stale x hx)

theorem Rooted.noted {e : Event} (h : Rooted scope root m) : Rooted scope root (m.noted e) :=
  ⟨h.tree, h.typed⟩

/-- **`map_to`**: the translation, or an error with new tables at most; a panic leaves the same. -/
theorem wp_mapTo {frame : RawFrame} {flags parent : PageTableFlags} (hframe : frame.Aligned)
    (hne : frame.base.addr ≠ 0 ∨ flags.bits ≠ 0) (h4 : scope (page.key 4))
    (hR : Rooted scope root m) (a : BumpAllocator) :
    wp (mapTo env page frame flags parent (root * frameSize) a)
      (fun r m' => match r.1 with
        | .ok () => Installed scope root page frame flags parent (m.noted (.mapTo page)) m'
        | .error _ => Grown scope root parent (m.noted (.mapTo page)) m')
      (fun _ m' => Stopped scope root parent (m.noted (.mapTo page)) m') m := by
  unfold mapTo note
  simp only [wp_bind, wp_modify]
  refine wp_mono (wp_mapToLoop h4 3 [] root a (m.noted (.mapTo page)) rfl hR.noted
    (Radix.node_root (by decide))) ?_ (fun _ _ h => h)
  rintro ⟨r, a'⟩ m' h
  unfold Outcome at h
  cases r with
  | error e => exact h
  | ok u =>
    obtain ⟨m₁, hg, hl⟩ := h
    exact hl.installed hframe hne h4 hg

end Call

/-! ## One translation -/

section WellFormed

variable {l4 : RawFrame} {m m' : Machine}

/-- The frame holds a table of the tree under `l4`. -/
def IsTable (l4 : RawFrame) (mem : Mem) (n : Nat) : Prop :=
  ∃ ks, TableAt (fun _ => True) l4.number mem ks n

/-- One entry of the tree, and no other, leads to the frame. -/
def ReferencedOnce (l4 : RawFrame) (mem : Mem) (n : Nat) : Prop :=
  ∃ ks p k e, LinkAt (fun _ => True) l4.number mem ks p k e ∧ target e = n ∧
    ∀ ks' p' k' e', LinkAt (fun _ => True) l4.number mem ks' p' k' e' → target e' = n →
      p' = p ∧ k' = k

/-- The tables under `l4` form a tree, without `HUGE_PAGE` on the way, of kernel frames in use. -/
structure WellFormed (l4 : RawFrame) (m : Machine) : Prop where
  aligned : l4.Aligned
  rooted : Rooted (fun _ => True) l4.number m
  noHuge : NoHuge (fun _ => True) l4.number m.mem

/-- The new links of an installed page have the flags it was called with, so `HUGE_PAGE` comes in
through `parent_flags` or not at all. -/
theorem noHuge_iff {page : Page} {frame : RawFrame} {flags parent : PageTableFlags}
    (hwf : WellFormed l4 m)
    (h : Installed (fun _ => True) l4.number page frame flags parent m m') :
    NoHuge (fun _ => True) l4.number m'.mem ↔
      (parent.contains .hugePage = false ∨ ∀ n, IsTable l4 m'.mem n → IsTable l4 m.mem n) := by
  have hhuge : (parent.union .present).contains .hugePage = parent.contains .hugePage :=
    PageTableFlags.contains_union_present parent rfl
  constructor
  · intro hno
    by_cases hp : parent.contains .hugePage = false
    · exact Or.inl hp
    · right
      rintro n ⟨ks, hn⟩
      cases ks using List.reverseRecOn with
      | nil =>
        rw [hn.eq_root]
        exact ⟨[], Radix.node_root (by decide)⟩
      | append_singleton qs k =>
        obtain ⟨p, e, hl, rfl⟩ := hn.exists_link
        rcases h.links qs p k e hl with hl' | ⟨hflags, _⟩
        · exact ⟨_, hl'.node⟩
        · have := hno qs p k e hl
          rw [hflags, hhuge] at this
          exact absurd this hp
  · rintro hcases ks n k e hl
    rcases h.links ks n k e hl with hl' | ⟨hflags, hu⟩
    · exact hwf.noHuge ks n k e hl'
    · rcases hcases with hp | hold
      · rw [hflags, hhuge]
        exact hp
      · obtain ⟨qs, hq⟩ := hold (target e) ⟨_, hl.node⟩
        exact absurd rfl (hwf.rooted.ne_of_typing hq hu (by decide))

theorem referencedOnce_of_link (hT : TreeAt (fun _ => True) l4.number m.mem)
    {ks : List (Fin 512)} {p n : Nat} {k : Fin 512} {e : Mapping}
    (hl : LinkAt (fun _ => True) l4.number m.mem ks p k e) (he : target e = n) :
    ReferencedOnce l4 m.mem n := by
  refine ⟨ks, p, k, e, hl, he, fun ks' p' k' e' hl' he' => ?_⟩
  exact hT.link_unique _ _ _ _ _ _ _ _ hl' hl (he'.trans he.symm)

/-- **`map_to` installs exactly one translation.** From a well-formed state, when the call returns
`Ok`, the page translates to the frame and flags, every other page translates as before, and what
was retyped is what became a table: untyped frames, each with one reference and referenced once.
The state is well-formed again unless a new table hangs under an entry made with `HUGE_PAGE`. -/
theorem map_to_one_translation {env : Env} {page : Page} {frame : RawFrame}
    {flags parentFlags : PageTableFlags} {a a' : BumpAllocator} (hwf : WellFormed l4 m)
    (hframe : frame.Aligned) (hne : frame.base.addr ≠ 0 ∨ flags.bits ≠ 0)
    (hok : mapTo env page frame flags parentFlags l4.base.addr a m = .ok (.ok (), a') m') :
    translate m'.mem l4 page = some (frame, flags) ∧
      (∀ q, q ≠ page → translate m'.mem l4 q = translate m.mem l4 q) ∧
      (∀ n, IsTable l4 m'.mem n → ¬ IsTable l4 m.mem n → m'.typing n ≠ m.typing n) ∧
      (∀ n, m'.typing n ≠ m.typing n → m.typing n = some (.untyped, 0) ∧
        m'.typing n = some (.kernel, 1) ∧ ReferencedOnce l4 m'.mem n) ∧
      (WellFormed l4 m' ↔ (parentFlags.contains .hugePage = false ∨
        ∀ n, IsTable l4 m'.mem n → IsTable l4 m.mem n)) := by
  rw [hwf.aligned.base_eq] at hok
  have hi := wp_ok (wp_mapTo hframe hne trivial hwf.rooted a) hok
  simp only at hi
  unfold translate
  simp only [walk_eq_trail _ hwf.aligned]
  refine ⟨?_, ?_, ?_, ?_, ?_⟩
  · obtain ⟨ps, _, _, htr⟩ := hi.installed
    rw [htr]
    simp
  · intro q hq
    rw [hi.others q.keys q.length_keys trivial fun h => hq (Page.ext_keys h)]
    rfl
  · rintro n ⟨ks, hn⟩ hnot
    rcases hi.tables ks n hn with hn' | hu
    · exact absurd ⟨ks, hn'⟩ hnot
    · obtain ⟨c, hc, _⟩ := hi.rooted.typed ks n hn
      rw [hc, show m.typing n = _ from hu]
      simp
  · intro n hn
    rcases hi.retyped n with heq | ⟨hu, hk, ks, p, k, e, hl, he⟩
    · exact absurd heq hn
    · exact ⟨hu, hk, referencedOnce_of_link hi.rooted.tree hl he⟩
  · have hno := noHuge_iff ⟨hwf.aligned, hwf.rooted.noted, hwf.noHuge⟩ hi
    exact ⟨fun h => hno.mp h.noHuge, fun h => ⟨hwf.aligned, hi.rooted, hno.mpr h⟩⟩

end WellFormed

/-- An empty L4 table in frame 1, and three frames for the tables below it. -/
def blankSpace : Machine where
  mem _ := 0
  retypeMap :=
    [.unavailable, .kernel 1 RetypeEntry.one_le_maxRefCount, .untyped, .untyped, .untyped]
  cr3 := frameOne
  trace := []

def pageZero : Page := ⟨⟨0, rfl⟩, rfl⟩

theorem blankSpace_wellFormed : WellFormed frameOne blankSpace := by
  have hempty : ∀ k, entryOf blankSpace.mem frameOne.number k = none :=
    fun _ => PageTableEntry.decode_eq_none.mpr wordOf_zero
  refine ⟨rfl, rooted_of_empty (fun k _ => hempty k) (c := 1) rfl (by decide), ?_⟩
  intro ks n k e hl
  exact absurd hl (Radix.not_link_of_empty fun k _ => hempty k)

theorem map_to_one_translation_blankSpace :
    ∃ a' m', mapTo Env.dev pageZero frameOne .present .writable frameOne.base.addr .new blankSpace =
      .ok (.ok (), a') m' ∧ translate m'.mem frameOne pageZero = some (frameOne, .present) ∧
      WellFormed frameOne m' := by
  obtain ⟨a', m', hrun⟩ : ∃ a' m', mapTo Env.dev pageZero frameOne .present .writable
      frameOne.base.addr .new blankSpace = .ok (.ok (), a') m' :=
    ⟨_, _, by with_unfolding_all rfl⟩
  have hal : frameOne.Aligned := rfl
  obtain ⟨h1, _, _, _, h5⟩ := map_to_one_translation blankSpace_wellFormed hal
    (Or.inl (by decide)) hrun
  exact ⟨a', m', hrun, h1, h5.mpr (Or.inl rfl)⟩

/-- Called with `HUGE_PAGE` among its parent flags, `map_to` leaves it in the tree. -/
theorem map_to_huge_parent :
    WellFormed frameOne blankSpace ∧ ∃ a' m',
      mapTo Env.dev pageZero frameOne .present .hugePage frameOne.base.addr .new blankSpace =
        .ok (.ok (), a') m' ∧ ¬ WellFormed frameOne m' := by
  refine ⟨blankSpace_wellFormed, _, finalState (mapTo Env.dev pageZero frameOne .present .hugePage
    frameOne.base.addr .new blankSpace), by with_unfolding_all rfl, fun hwf => ?_⟩
  have hentry : entryOf (finalState (mapTo Env.dev pageZero frameOne .present .hugePage
      frameOne.base.addr .new blankSpace)).mem frameOne.number 0 =
      some (⟨⟨0x2000, by decide⟩⟩, PageTableFlags.union .hugePage .present) := by decide +kernel
  exact absurd (hwf.noHuge [] _ 0 _
    ⟨by decide, trivial, Radix.node_root (by decide), hentry⟩) (by decide)

end Harmony
