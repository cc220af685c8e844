import Harmony.Lib.Radix
import Harmony.Paging.PageTable

/-!
# The software walk

The page tables under an L4 table as a radix tree: frame numbers are the tables, 9-bit indices the
keys, decoded words the entries. `walk` is the lookup itself, four reads by `page_table_index`
from level 4 down; `walk_eq_trail` says that it is the trail of the page's four keys, so the
results on radix trees are results on translations.

* `Rooted`: the tables reached from the L4 table form a tree and are kernel frames in use. `scope`
  limits this to the part of the L4 table whose index it accepts: a new address space shares the
  upper half with all others, and only its lower half is a tree of its own.
* `Rooted.congr`: what is written outside the tables does not matter to them.
-/

namespace Harmony

open Lib

/-! ## Tables and keys -/

/-- Entry `k` of the table in frame number `n`. -/
def entryOf (mem : Mem) (n : Nat) (k : Fin 512) : Option Mapping :=
  PageTableEntry.decode (load64 mem (n * frameSize + 8 * k))

/-- The frame number an entry leads to. -/
def target (e : Mapping) : Nat := e.1.number

/-- The page's index at a level, as a key. -/
def Page.key (p : Page) (level : Nat) : Fin 512 := ⟨p.index level, p.index_lt level⟩

/-- The page's keys from a level down. -/
def Page.keysFrom (p : Page) : Nat → List (Fin 512)
  | 0 => []
  | lower + 1 => p.key (lower + 1) :: p.keysFrom lower

/-- The page's keys, level 4 first. -/
def Page.keys (p : Page) : List (Fin 512) := p.keysFrom 4

@[simp] theorem Page.length_keysFrom (p : Page) (level : Nat) :
    (p.keysFrom level).length = level := by
  induction level with
  | zero => rfl
  | succ lower ih => simp [Page.keysFrom, ih]

theorem Page.length_keys (p : Page) : p.keys.length = 4 := p.length_keysFrom 4

/-- The keys determine the page. -/
theorem Page.ext_keys {p q : Page} (h : p.keys = q.keys) : p = q := by
  simp only [Page.keys, Page.keysFrom, List.cons.injEq, Page.key, Fin.mk.injEq, and_true] at h
  obtain ⟨h4, h3, h2, h1⟩ := h
  exact Page.ext_indices h4 h3 h2 h1

/-! ## The walk -/

/-- The entries met from `level` down, in the table at physical address `table`. -/
def walkFrom (mem : Mem) (page : Page) : Nat → Nat → Option (List Mapping)
  | 0, _ => some []
  | lower + 1, table => do
    let e ← PageTableEntry.decode
      (load64 mem (table + 8 * page.base.pageTableIndex (lower + 1)))
    let rest ← walkFrom mem page lower e.1.base.addr
    some (e :: rest)

/-- The four entries of a page, from the L4 table in frame `l4`. -/
def walk (mem : Mem) (l4 : RawFrame) (page : Page) : Option (List Mapping) :=
  walkFrom mem page 4 l4.base.addr

/-- The translation of a page: the last of its entries. -/
def translate (mem : Mem) (l4 : RawFrame) (page : Page) : Option Mapping :=
  (walk mem l4 page).bind List.getLast?

/-- The entries along a path of keys. -/
abbrev trailOf (mem : Mem) (root : Nat) (ks : List (Fin 512)) : Option (List Mapping) :=
  Radix.trail target (entryOf mem) root ks

theorem entryOf_aligned {mem : Mem} {n : Nat} {k : Fin 512} {e : Mapping}
    (h : entryOf mem n k = some e) : e.1.Aligned :=
  PageTableEntry.aligned_of_decode h

theorem walkFrom_eq_trail (mem : Mem) (page : Page) (level n : Nat) :
    walkFrom mem page level (n * frameSize) = trailOf mem n (page.keysFrom level) := by
  induction level generalizing n with
  | zero => rfl
  | succ lower ih =>
    unfold Page.keysFrom trailOf
    rw [Radix.trail_cons]
    change (entryOf mem n (page.key (lower + 1))).bind _ = _
    cases he : entryOf mem n (page.key (lower + 1)) with
    | none => rfl
    | some e =>
      simp only [Option.bind_some, (entryOf_aligned he).base_eq]
      rw [ih]
      exact Option.map_eq_bind.symm

/-- **The walk is the trail of the page's keys.** -/
theorem walk_eq_trail (mem : Mem) {l4 : RawFrame} (hl4 : l4.Aligned) (page : Page) :
    walk mem l4 page = trailOf mem l4.number page.keys := by
  unfold walk
  rw [hl4.base_eq]
  exact walkFrom_eq_trail mem page 4 l4.number

/-! ## What a store does to the entries -/

section Stores

variable {mem mem' : Mem} {n t x : Nat} {k j : Fin 512}

/-- A frame's store stays in the frame. -/
theorem store_frame_ne (f : Nat → BitVec 8) (h : x / frameSize ≠ t) :
    Lib.store mem (t * frameSize) pageSize f x = mem x := by
  apply store_apply_of_not_mem
  simp only [frameSize, pageSize] at h ⊢
  omega

/-- An entry's store stays in its table. -/
theorem store64_frame_ne (w : BitVec 64) (h : x / frameSize ≠ t) :
    Lib.store64 mem (t * frameSize + 8 * k) w x = mem x := by
  have hk := k.isLt
  apply store_apply_of_not_mem
  simp only [frameSize] at h ⊢
  omega

theorem entryOf_congr (h : ∀ x, x / frameSize = n → mem' x = mem x) :
    entryOf mem' n k = entryOf mem n k := by
  unfold entryOf
  rw [load64_congr]
  intro i hi
  have hk := k.isLt
  exact h _ (by simp only [frameSize]; omega)

theorem entryOf_store64_self (w : BitVec 64) :
    entryOf (Lib.store64 mem (t * frameSize + 8 * k) w) t k = PageTableEntry.decode w := by
  unfold entryOf
  rw [load64_store64]

theorem entryOf_store64_ne (w : BitVec 64) (h : ¬ (n = t ∧ j = k)) :
    entryOf (Lib.store64 mem (t * frameSize + 8 * k) w) n j = entryOf mem n j := by
  have hj := j.isLt
  have hk := k.isLt
  have hne : ¬ (n = t ∧ (j : Nat) = k) := fun h' => h ⟨h'.1, Fin.ext h'.2⟩
  unfold entryOf
  rw [load64_store64_of_disjoint]
  simp only [frameSize]
  omega

theorem entryOf_store_ne (f : Nat → BitVec 8) (h : n ≠ t) :
    entryOf (Lib.store mem (t * frameSize) pageSize f) n j = entryOf mem n j := by
  apply entryOf_congr
  rintro x rfl
  exact store_frame_ne f h

theorem entryOf_store_table (a : AnyPageTable) :
    entryOf (Lib.store mem (t * frameSize) pageSize a.bytes) t j =
      PageTableEntry.decode (a j) := by
  unfold entryOf
  rw [load64_table _ _ _ j.isLt]

end Stores

/-! ## Trees of tables -/

/-- The table in frame number `n` is reached from `root` along the keys `ks`. -/
abbrev TableAt (scope : Fin 512 → Prop) (root : Nat) (mem : Mem) (ks : List (Fin 512)) (n : Nat) :
    Prop := Radix.Node target (entryOf mem) root 4 scope ks n

/-- Entry `k` of table `n` leads to another table. -/
abbrev LinkAt (scope : Fin 512 → Prop) (root : Nat) (mem : Mem) (ks : List (Fin 512)) (n : Nat)
    (k : Fin 512) (e : Mapping) : Prop := Radix.Link target (entryOf mem) root 4 scope ks n k e

/-- The tables reached from `root` form a tree: no table is referenced by two entries. -/
abbrev TreeAt (scope : Fin 512 → Prop) (root : Nat) (mem : Mem) : Prop :=
  Radix.Tree target (entryOf mem) root 4 scope

/-- The tables reached from `root` form a tree of kernel frames in use. -/
structure Rooted (scope : Fin 512 → Prop) (root : Nat) (m : Machine) : Prop where
  tree : TreeAt scope root m.mem
  typed : ∀ ks n, TableAt scope root m.mem ks n → ∃ c, m.typing n = some (.kernel, c) ∧ c ≠ 0

/-- No entry that leads to a table has `HUGE_PAGE`. -/
def NoHuge (scope : Fin 512 → Prop) (root : Nat) (mem : Mem) : Prop :=
  ∀ ks n k e, LinkAt scope root mem ks n k e → e.2.contains .hugePage = false

section Rooted

variable {scope : Fin 512 → Prop} {root : Nat} {m m' : Machine}

/-- An empty table in a kernel frame is a tree. -/
theorem rooted_of_empty (hempty : ∀ k, scope k → entryOf m.mem root k = none) {c : Nat}
    (hty : m.typing root = some (.kernel, c)) (hc : c ≠ 0) : Rooted scope root m where
  tree := Radix.tree_of_empty hempty
  typed ks n hn := by
    obtain ⟨rfl, rfl⟩ := hn.of_empty hempty
    exact ⟨c, hty, hc⟩

/-- Table frames are kernel frames. -/
theorem Rooted.ne_of_typing (h : Rooted scope root m) {ks : List (Fin 512)} {n f c : Nat}
    {st : State} (hn : TableAt scope root m.mem ks n) (hf : m.typing f = some (st, c))
    (hst : st ≠ .kernel) : n ≠ f := by
  rintro rfl
  obtain ⟨c', hc', _⟩ := h.typed ks n hn
  rw [hf] at hc'
  exact hst (congrArg Prod.fst (Option.some.inj hc'))

/-- Table frames agree where memory outside them is written. -/
theorem entryOf_eq_of_tables
    (hmem : ∀ x ks, TableAt scope root m.mem ks (x / frameSize) → m'.mem x = m.mem x) :
    ∀ ks n, TableAt scope root m.mem ks n → ∀ j, entryOf m'.mem n j = entryOf m.mem n j :=
  fun ks _ hn _ => entryOf_congr fun x hx => hmem x ks (hx.symm ▸ hn)

/-- **What is written outside the tables, and retyped without touching kernel frames, does not
matter to them.** -/
theorem Rooted.congr (h : Rooted scope root m)
    (hmem : ∀ x ks, TableAt scope root m.mem ks (x / frameSize) → m'.mem x = m.mem x)
    (hty : ∀ n c, m.typing n = some (.kernel, c) → m'.typing n = m.typing n) :
    Rooted scope root m' where
  tree := Radix.tree_congr (entryOf_eq_of_tables hmem) h.tree
  typed ks n hn := by
    obtain ⟨c, hc, h0⟩ := h.typed ks n ((Radix.node_congr (entryOf_eq_of_tables hmem)).mp hn)
    exact ⟨c, (hty n c hc).trans hc, h0⟩

end Rooted

end Harmony
