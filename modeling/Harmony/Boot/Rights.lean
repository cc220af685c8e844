import Harmony.Boot.Placing
import Harmony.Lib.Run

/-!
# The rights of a mapped page

The processor grants a page a right when the entries of all four levels do. `map_to`
(`paging/page_table.rs`) sets the flags of a page's own entry, and of the tables it makes on the
way; tables that are there keep the flags of the call that made them. So the rights of a page depend
on the calls that first went through its 512 GiB, 1 GiB and 2 MiB neighbourhoods.

* `Mapped.step`: every link has the parent flags of the first call through it.
* `hasRight_iff`: the rights a page has after any sequence of calls.
* `rights_kept_iff`: each page has the rights it was mapped with, iff the first calls through its
  tables had them too.
-/

namespace Harmony

open Lib

/-- One call of `map_to`. -/
structure MapCall where
  page : Page
  frame : RawFrame
  flags : PageTableFlags
  parent : PageTableFlags
  low : lowHalf (page.key 4)
  aligned : frame.Aligned

/-- The rights of a page. -/
inductive Right where
  | write
  | user
  deriving DecidableEq

def Right.flag : Right → PageTableFlags
  | .write => .writable
  | .user => .userAccessible

/-- The walk of the page grants the right: all of its four entries do. -/
def HasRight (mem : Mem) (l4 : RawFrame) (page : Page) (r : Right) : Prop :=
  ∃ es, walk mem l4 page = some es ∧ ∀ e ∈ es, e.2.contains r.flag = true

/-- A call that returned `Ok`, with some allocator. -/
def MapStep (env : Env) (l4 : RawFrame) (m : Machine) (c : MapCall) (m' : Machine) : Prop :=
  ∃ a a', mapTo env c.page c.frame c.flags c.parent l4.base.addr a m = .ok (.ok (), a') m'

/-- An L4 table whose lower half is empty. -/
structure EmptyLowHalf (l4 : RawFrame) (m : Machine) : Prop where
  aligned : l4.Aligned
  empty : ∀ k, lowHalf k → entryOf m.mem l4.number k = none
  typed : ∃ c, m.typing l4.number = some (.kernel, c) ∧ c ≠ 0

/-- The first of the calls that went through the table entry along `ks`. -/
def firstThrough (calls : List MapCall) (ks : List (Fin 512)) : Option MapCall :=
  calls.find? fun c => decide (ks <+: c.page.keys)

/-! ## One call -/

section Way

variable {env : Env} {page : Page} {parent : PageTableFlags} {scope : Fin 512 → Prop} {root : Nat}

/-- The links that a call adds lie on the page's way. -/
def LinksOnWay (scope : Fin 512 → Prop) (root : Nat) (page : Page) (parent : PageTableFlags)
    (m m' : Machine) : Prop :=
  ∀ ks n k e, LinkAt scope root m'.mem ks n k e → LinkAt scope root m.mem ks n k e ∨
    (e.2 = parent.union .present ∧ ks ++ [k] <+: page.keys)

theorem Down.linksOnWay (h4 : scope (page.key 4)) {s t : Spot} (h : OnWay scope root page s)
    (hd : Down env page parent s t) :
    LinksOnWay scope root page parent s.machine t.machine := by
  obtain ⟨hR, ks, hks, hn⟩ := h
  cases hd with
  | follow hl he hhuge => exact fun _ _ _ _ hlink => Or.inl hlink
  | build hl he halloc hc =>
    obtain ⟨hks', hs, hin⟩ := Page.keys_step h4 hl hks
    have hgraft := withTable_graft parent hR hc hn hin hs he
    have hgrown := withTable_grown parent hR hc hn hin hs he
    intro qs p k e hlink
    rcases hgraft.link_cases hR.tree hlink with hold | ⟨rfl, rfl, rfl⟩
    · exact Or.inl hold
    · -- the link's table is reached along one path only
      have hq : qs = ks := hgrown.grows.tree.path_unique hlink.2.2.1 (hgrown.grows.node hn)
      subst hq
      exact Or.inr ⟨rfl, _, hks'⟩

theorem Descent.linksOnWay (h4 : scope (page.key 4)) {s t : Spot} (h : OnWay scope root page s)
    (hd : Descent env page parent s t) :
    LinksOnWay scope root page parent s.machine t.machine := by
  induction hd with
  | refl => exact fun _ _ _ _ hlink => Or.inl hlink
  | tail hs hdown ih =>
    intro ks n k e hlink
    rcases hdown.linksOnWay h4 (Descent.onWay h4 h hs).1 ks n k e hlink with hold | hnew
    · exact ih ks n k e hold
    · exact Or.inr hnew

end Way

/-- What is read back from the bottom entry of a call: frame and flags, unless both are zero. -/
def MapCall.leaf (c : MapCall) : Option Mapping :=
  PageTableEntry.decode (PageTableEntry.encode c.frame c.flags)

theorem MapCall.leaf_cases (c : MapCall) :
    ((c.frame.base.addr ≠ 0 ∨ c.flags.bits ≠ 0) ∧ c.leaf = some (c.frame, c.flags)) ∨
      (PageTableEntry.encode c.frame c.flags = 0 ∧ c.leaf = none ∧ c.flags.bits = 0) := by
  by_cases hne : c.frame.base.addr ≠ 0 ∨ c.flags.bits ≠ 0
  · exact Or.inl ⟨hne, PageTableEntry.decode_encode c.aligned hne⟩
  · rw [not_or, not_ne_iff, not_ne_iff] at hne
    have hzero : PageTableEntry.encode c.frame c.flags = 0 := by
      unfold PageTableEntry.encode
      rw [hne.1, hne.2]
      rfl
    refine Or.inr ⟨hzero, ?_, hne.2⟩
    unfold MapCall.leaf
    rw [hzero]
    exact PageTableEntry.decode_eq_none.mpr rfl

section Step

variable {env : Env} {l4 : RawFrame} {m m₁ m' : Machine} {c : MapCall}

/-- What writing the bottom entry does to the tree. -/
structure LeafDone (root : Nat) (c : MapCall) (m m' : Machine) : Prop where
  rooted : Rooted lowHalf root m'
  links : ∀ ks n k e, LinkAt lowHalf root m'.mem ks n k e ↔ LinkAt lowHalf root m.mem ks n k e
  short : ∀ qs : List (Fin 512), qs.length < 4 → Radix.Scoped lowHalf qs →
    trailOf m'.mem root qs = trailOf m.mem root qs
  others : ∀ qs : List (Fin 512), qs.length = 4 → Radix.Scoped lowHalf qs → qs ≠ c.page.keys →
    trailOf m'.mem root qs = trailOf m.mem root qs
  own : ∃ ks ps, ks ++ [c.page.key 1] = c.page.keys ∧ trailOf m'.mem root ks = some ps ∧
    trailOf m'.mem root c.page.keys = c.leaf.map fun e => ps ++ [e]

theorem LeafSet.done {root : Nat} (hR : Rooted lowHalf root m)
    (h : LeafSet lowHalf root c.page c.frame c.flags m m') : LeafDone root c m m' := by
  rcases c.leaf_cases with ⟨hne, hleaf⟩ | ⟨hzero, hleaf, _⟩
  · obtain ⟨ks, t, hks, _, hw⟩ := h.leafWrite c.aligned hne
    obtain ⟨_, _, _, _, _, rfl⟩ := h
    obtain ⟨hlen, hsc, es, htr, _⟩ := hw.node
    constructor
    · exact ⟨hw.tree hR.tree, fun qs n hn => hR.typed qs n ((hw.node_iff hR.tree).mp hn)⟩
    · exact fun _ _ _ _ => hw.link_iff hR.tree
    · exact fun qs hq hs => hw.trail_short hR.tree hq hs
    · intro qs hq hs hne'
      exact hw.trail_other hR.tree hq hs (by rwa [hks])
    · refine ⟨ks, es, hks, (hw.trail_short hR.tree hlen hsc).trans htr, ?_⟩
      rw [← hks, hleaf]
      refine (hw.trail_written hR.tree).trans ?_
      rw [htr]
      rfl
  · -- a zero word over a zero word: no entry changes
    obtain ⟨ks, t, hks, ht, hvac, rfl⟩ := h
    have hsame : entryOf (m.store64 (t * frameSize + 8 * (c.page.key 1 : Nat))
        (PageTableEntry.encode c.frame c.flags)).mem = entryOf m.mem := by
      funext n j
      by_cases hat : n = t ∧ j = c.page.key 1
      · obtain ⟨rfl, rfl⟩ := hat
        exact (entryOf_store64_self _).trans (hleaf.trans hvac.symm)
      · exact entryOf_store64_ne _ hat
    obtain ⟨_, _, es, htr, hend⟩ := ht
    constructor
    · refine ⟨?_, fun qs n hn => ?_⟩
      · unfold TreeAt
        rw [hsame]
        exact hR.tree
      · unfold TableAt at hn
        rw [hsame] at hn
        exact hR.typed qs n hn
    · intro qs n k e
      unfold LinkAt
      rw [hsame]
    · intro qs _ _
      unfold trailOf
      rw [hsame]
    · intro qs _ _ _
      unfold trailOf
      rw [hsame]
    · refine ⟨ks, es, hks, ?_, ?_⟩
      · unfold trailOf
        rw [hsame]
        exact htr
      · unfold trailOf
        rw [hsame, ← hks, Radix.trail_concat_of_some _ htr, hend, hvac, hleaf]

/-- **One call**: the links it adds, and the page's own entries. -/
theorem MapStep.effect (hl4 : l4.Aligned) (hR : Rooted lowHalf l4.number m)
    (h : MapStep env l4 m c m') :
    ∃ m₁, Grown lowHalf l4.number c.parent (m.noted (.mapTo c.page)) m₁ ∧
      LinksOnWay lowHalf l4.number c.page c.parent (m.noted (.mapTo c.page)) m₁ ∧
      LeafDone l4.number c m₁ m' := by
  obtain ⟨a, a', hrun⟩ := h
  rw [hl4.base_eq] at hrun
  obtain ⟨s, hs, hend⟩ := wp_ok
    (mapTo_descends env c.page c.frame c.flags c.parent l4.number a m) hrun
  have hstart : OnWay lowHalf l4.number c.page ⟨4, l4.number, a, m.noted (.mapTo c.page)⟩ :=
    ⟨hR.noted, [], rfl, Radix.node_root (by decide)⟩
  obtain ⟨hway, hg⟩ := Descent.onWay c.low hstart hs
  have hlinks := Descent.linksOnWay c.low hstart hs
  have hleaf := LeafSet.done hway.rooted (hend.leafSet hway rfl)
  exact ⟨s.machine, hg, hlinks, hleaf⟩

/-! ## Runs -/

/-- **The invariant** of a run, with the calls made so far: every link has the parent flags of the
first call through it, and every page mapped has its tables and its own entry. -/
structure Mapped (root : Nat) (calls : List MapCall) (m : Machine) : Prop where
  rooted : Rooted lowHalf root m
  links : ∀ ks n k e, LinkAt lowHalf root m.mem ks n k e →
    ∃ c, firstThrough calls (ks ++ [k]) = some c ∧ e.2 = c.parent.union .present
  pages : ∀ c ∈ calls, ∃ ks ps, ks ++ [c.page.key 1] = c.page.keys ∧
    trailOf m.mem root ks = some ps ∧
    trailOf m.mem root c.page.keys = c.leaf.map fun e => ps ++ [e]

theorem EmptyLowHalf.mapped (h : EmptyLowHalf l4 m) : Mapped l4.number [] m := by
  obtain ⟨n, hty, h0⟩ := h.typed
  constructor
  · exact rooted_of_empty h.empty hty h0
  · exact fun _ _ _ _ hl => absurd hl (Radix.not_link_of_empty h.empty)
  · exact fun c hc => absurd hc List.not_mem_nil

/-- A link along a path is the one entry of that path. -/
theorem link_unique_path {mem : Mem} {root : Nat} {ks : List (Fin 512)} {n n' : Nat} {k : Fin 512}
    {e e' : Mapping} (h : LinkAt lowHalf root mem ks n k e)
    (h' : LinkAt lowHalf root mem ks n' k e') : e = e' := by
  obtain ⟨_, _, ⟨_, _, es, htr, hend⟩, he⟩ := h
  obtain ⟨_, _, ⟨_, _, es', htr', hend'⟩, he'⟩ := h'
  obtain rfl := Option.some.inj (htr.symm.trans htr')
  obtain rfl := hend.symm.trans hend'
  exact Option.some.inj (he.symm.trans he')

theorem firstThrough_concat (calls : List MapCall) (c : MapCall) (ks : List (Fin 512)) :
    firstThrough (calls ++ [c]) ks =
      (firstThrough calls ks).or (if ks <+: c.page.keys then some c else none) := by
  unfold firstThrough
  rw [List.find?_append]
  by_cases h : ks <+: c.page.keys <;> simp [h]

/-- The page's keys without the last, as a way to its bottom table. -/
theorem MapCall.way (c : MapCall) {ks : List (Fin 512)} (hks : ks ++ [c.page.key 1] = c.page.keys) :
    ks.length < 4 ∧ Radix.Scoped lowHalf ks := by
  have hlen := congrArg List.length hks
  rw [List.length_append, List.length_singleton, Page.length_keys] at hlen
  exact ⟨by omega, scoped_of_keys c.low hks⟩

/-- A shorter way than the page's own ends above its bottom entry. -/
theorem prefix_of_prefix_concat {ks qs : List (Fin 512)} {k : Fin 512} {all : List (Fin 512)}
    (hks : ks ++ [k] = all) (hq : qs <+: all) (hlen : qs.length < all.length) : qs <+: ks := by
  subst hks
  refine List.prefix_of_prefix_length_le hq (List.prefix_append _ _) ?_
  rw [List.length_append, List.length_singleton] at hlen
  omega

/-- The tables of a page that was mapped are there. -/
theorem Mapped.link_through {root : Nat} {calls : List MapCall} (h : Mapped root calls m)
    (hc : c ∈ calls) {ks : List (Fin 512)} {k : Fin 512} (hpre : ks ++ [k] <+: c.page.keys)
    (hlen : ks.length + 1 < 4) : ∃ n e, LinkAt lowHalf root m.mem ks n k e := by
  obtain ⟨qs, ps, hqs, htr, _⟩ := h.pages c hc
  obtain ⟨hq, hs⟩ := c.way hqs
  have hpre' : ks ++ [k] <+: qs :=
    prefix_of_prefix_concat hqs hpre (by
      rw [Page.length_keys, List.length_append]
      exact hlen)
  obtain ⟨n, e, hl, _⟩ := Radix.link_of_prefix hq hs hpre' htr
  exact ⟨n, e, hl⟩

/-- **One call keeps the invariant.** -/
theorem Mapped.step {calls : List MapCall} (hl4 : l4.Aligned) (h : Mapped l4.number calls m)
    (hnew : ∀ d ∈ calls, d.page ≠ c.page) (hs : MapStep env l4 m c m') :
    Mapped l4.number (calls ++ [c]) m' := by
  obtain ⟨m₁, hg, hway, hleaf⟩ := hs.effect hl4 h.rooted
  constructor
  · exact hleaf.rooted
  · intro ks n k e hl
    have hl₁ := (hleaf.links ks n k e).mp hl
    rw [firstThrough_concat]
    cases hf : firstThrough calls (ks ++ [k]) with
    | some d =>
      -- the call that came first made the link, and it is still the same
      have hd : d ∈ calls := List.mem_of_find?_eq_some hf
      have hpre : ks ++ [k] <+: d.page.keys := by simpa using List.find?_some hf
      obtain ⟨n₀, e₀, hl₀⟩ := h.link_through hd hpre hl.1
      obtain rfl := link_unique_path hl₁ (hg.grows.link hl₀)
      obtain ⟨d', hd', hflags⟩ := h.links ks n₀ k e hl₀
      obtain rfl := Option.some.inj (hf.symm.trans hd')
      exact ⟨d, rfl, hflags⟩
    | none =>
      rcases hway ks n k e hl₁ with hold | ⟨hflags, hpre⟩
      · obtain ⟨d, hd, _⟩ := h.links ks n k e hold
        rw [hf] at hd
        cases hd
      · exact ⟨c, by rw [if_pos hpre]; rfl, hflags⟩
  · intro d hd
    rcases List.mem_append.mp hd with hd | hd
    · obtain ⟨ks, ps, hks, htr, hfull⟩ := h.pages d hd
      obtain ⟨hlen, hsc⟩ := d.way hks
      have hne : d.page.keys ≠ c.page.keys := fun heq => hnew d hd (Page.ext_keys heq)
      refine ⟨ks, ps, hks, ?_, ?_⟩
      · exact (hleaf.short ks hlen hsc).trans (hg.grows.short ks ps hlen hsc htr)
      · exact (hleaf.others _ d.page.length_keys d.low hne).trans
          ((hg.grows.full _ d.page.length_keys d.low).trans hfull)
    · obtain rfl := List.mem_singleton.mp hd
      exact hleaf.own

/-- **A whole run keeps it.** -/
theorem Mapped.run {calls done : List MapCall} (hl4 : l4.Aligned) (h : Mapped l4.number done m)
    (hpages : ((done ++ calls).map MapCall.page).Nodup) (hrun : Run (MapStep env l4) m calls m') :
    Mapped l4.number (done ++ calls) m' := by
  induction hrun generalizing done with
  | nil m => rwa [List.append_nil]
  | @cons m m₂ m' c cs hs _ ih =>
    have happend : done ++ c :: cs = (done ++ [c]) ++ cs := by simp
    rw [happend] at hpages ⊢
    refine ih (h.step hl4 (fun d hd heq => ?_) hs) hpages
    rw [List.map_append, List.map_append] at hpages
    have hapart := (List.nodup_append.mp (List.nodup_append.mp hpages).1).2.2
    exact hapart d.page (List.mem_map_of_mem hd) c.page (by simp) heq

/-- The first calls through the tables on the way to the page had the right in their parent
flags. -/
def GrantedOnWay (calls : List MapCall) (page : Page) (r : Right) : Prop :=
  ∀ ks k d, ks ++ [k] <+: page.keys → ks.length < 3 → firstThrough calls (ks ++ [k]) = some d →
    d.parent.contains r.flag = true

theorem Right.union_present (r : Right) (flags : PageTableFlags) :
    (flags.union .present).contains r.flag = flags.contains r.flag := by
  cases r with
  | write => exact PageTableFlags.contains_union_present flags rfl
  | user => exact PageTableFlags.contains_union_present flags rfl

/-- **The rights a page has.** -/
theorem hasRight_iff {calls : List MapCall} (hl4 : l4.Aligned) (h : Mapped l4.number calls m)
    (hc : c ∈ calls) (r : Right) : HasRight m.mem l4 c.page r ↔
      c.flags.contains r.flag = true ∧ GrantedOnWay calls c.page r := by
  obtain ⟨ks, ps, hks, htr, hfull⟩ := h.pages c hc
  obtain ⟨hlen, hsc⟩ := c.way hks
  unfold HasRight
  rw [walk_eq_trail _ hl4, hfull]
  rcases c.leaf_cases with ⟨_, hleaf⟩ | ⟨_, hleaf, hzero⟩
  · rw [hleaf]
    have hway : (∀ e ∈ ps, e.2.contains r.flag = true) ↔ GrantedOnWay calls c.page r := by
      constructor
      · intro hps qs k d hpre hq hd
        have hpre' : qs ++ [k] <+: ks :=
          prefix_of_prefix_concat hks hpre (by
            rw [Page.length_keys, List.length_append, List.length_singleton]
            omega)
        obtain ⟨n, e, hl, he⟩ := Radix.link_of_prefix hlen hsc hpre' htr
        obtain ⟨d', hd', hflags⟩ := h.links qs n k e hl
        obtain rfl := Option.some.inj (hd.symm.trans hd')
        rw [← r.union_present, ← hflags]
        exact hps e he
      · intro hg e he
        obtain ⟨qs, n, k, hl, hpre⟩ := Radix.links_of_trail hlen hsc htr e he
        obtain ⟨d, hd, hflags⟩ := h.links qs n k e hl
        rw [hflags, r.union_present]
        have hq := hl.1
        exact hg qs k d (hpre.trans ⟨_, hks⟩) (by omega) hd
    rw [← hway]
    constructor
    · rintro ⟨es, hes, hall⟩
      obtain rfl := Option.some.inj hes
      exact ⟨hall (c.frame, c.flags) (by simp), fun e he => hall e (List.mem_append_left _ he)⟩
    · rintro ⟨hown, hps⟩
      refine ⟨_, rfl, fun e he => ?_⟩
      rcases List.mem_append.mp he with he | he
      · exact hps e he
      · obtain rfl := List.mem_singleton.mp he
        exact hown
  · rw [hleaf]
    constructor
    · rintro ⟨es, hes, _⟩
      cases hes
    · rintro ⟨hown, _⟩
      unfold PageTableFlags.contains at hown
      rw [hzero] at hown
      cases r with
      | write => exact absurd hown (by decide)
      | user => exact absurd hown (by decide)

end Step

/-- **The law**: a page has the rights its call asked for, in the flags of the page and of its
parents, and none that the flags of the page lack. -/
def RightsKept (l4 : RawFrame) (calls : List MapCall) (m : Machine) : Prop :=
  ∀ c ∈ calls, ∀ r : Right,
    (c.flags.contains r.flag = true → c.parent.contains r.flag = true →
      HasRight m.mem l4 c.page r) ∧
    (c.flags.contains r.flag = false → ¬ HasRight m.mem l4 c.page r)

/-- **The rights after a run.** They are those of the page's own flags that the first calls through
its tables granted as well; so the law holds iff those calls granted whatever the page's own call
asked for. -/
theorem rights_kept_iff (env : Env) (l4 : RawFrame) (m m' : Machine) (calls : List MapCall)
    (h : EmptyLowHalf l4 m) (hpages : (calls.map MapCall.page).Nodup)
    (hrun : Run (MapStep env l4) m calls m') :
    (∀ c ∈ calls, ∀ r, HasRight m'.mem l4 c.page r ↔
      c.flags.contains r.flag = true ∧ GrantedOnWay calls c.page r) ∧
    (RightsKept l4 calls m' ↔ ∀ c ∈ calls, ∀ r : Right, c.flags.contains r.flag = true →
      c.parent.contains r.flag = true → GrantedOnWay calls c.page r) := by
  have hmapped : Mapped l4.number calls m' := h.mapped.run h.aligned hpages hrun
  have hright : ∀ c ∈ calls, ∀ r, HasRight m'.mem l4 c.page r ↔
      c.flags.contains r.flag = true ∧ GrantedOnWay calls c.page r :=
    fun c hc r => hasRight_iff h.aligned hmapped hc r
  refine ⟨hright, ?_⟩
  constructor
  · intro hlaw c hc r hflags hparent
    exact ((hright c hc r).mp ((hlaw c hc r).1 hflags hparent)).2
  · intro hcond c hc r
    constructor
    · exact fun hflags hparent => (hright c hc r).mpr ⟨hflags, hcond c hc r hflags hparent⟩
    · intro hflags hhas
      rw [((hright c hc r).mp hhas).1] at hflags
      cases hflags

theorem blankSpace_emptyLowHalf : EmptyLowHalf frameOne blankSpace where
  aligned := rfl
  empty _ _ := PageTableEntry.decode_eq_none.mpr wordOf_zero
  typed := ⟨1, rfl, by decide⟩

/-- The first page, read-only under read-only tables. -/
def readOnlyPage : MapCall where
  page := pageZero
  frame := frameOne
  flags := .present
  parent := .present
  low := by unfold lowHalf; decide
  aligned := rfl

/-- The page behind it, writable under tables asked to be writable. -/
def writablePage : MapCall where
  page := ⟨⟨0x1000, rfl⟩, rfl⟩
  frame := frameOne
  flags := PageTableFlags.present.union .writable
  parent := .writable
  low := by unfold lowHalf; decide
  aligned := rfl

/-- On its own the second page is writable. -/
theorem rights_kept_iff_writablePage :
    ∃ m', Run (MapStep Env.dev frameOne) blankSpace [writablePage] m' ∧
      HasRight m'.mem frameOne writablePage.page .write := by
  obtain ⟨m', hstep⟩ : ∃ m', MapStep Env.dev frameOne blankSpace writablePage m' :=
    ⟨_, .new, _, by with_unfolding_all rfl⟩
  have hrun : Run (MapStep Env.dev frameOne) blankSpace [writablePage] m' := .cons hstep (.nil _)
  refine ⟨m', hrun, ?_⟩
  have hright := (rights_kept_iff Env.dev frameOne blankSpace m' [writablePage]
    blankSpace_emptyLowHalf (by simp) hrun).1
  refine (hright writablePage List.mem_cons_self .write).mpr ⟨by decide, ?_⟩
  intro ks k d _ _ hd
  obtain rfl := List.mem_singleton.mp (List.mem_of_find?_eq_some hd)
  decide

/-- **After the first page, the second is not**, although its call asked for it in both flags. -/
theorem rights_lost :
    ∃ m', Run (MapStep Env.dev frameOne) blankSpace [readOnlyPage, writablePage] m' ∧
      writablePage.flags.contains .writable = true ∧
      writablePage.parent.contains .writable = true ∧
      ¬ HasRight m'.mem frameOne writablePage.page .write := by
  have hwp : wp (mapTo Env.dev readOnlyPage.page readOnlyPage.frame readOnlyPage.flags
      readOnlyPage.parent frameOne.base.addr .new)
      (fun r m => r.1 = .ok () ∧ wp (mapTo Env.dev writablePage.page writablePage.frame
          writablePage.flags writablePage.parent frameOne.base.addr .new)
        (fun r m => r.1 = .ok () ∧ (walk m.mem frameOne writablePage.page).any
          (·.all (·.2.contains .writable)) = false) (fun _ _ => False) m)
      (fun _ _ => False) blankSpace := by decide +kernel
  obtain ⟨⟨_, a₁⟩, m₁, hrun₁, rfl, hwp⟩ := exists_of_wp hwp
  obtain ⟨⟨_, a₂⟩, m₂, hrun₂, rfl, hwalk⟩ := exists_of_wp hwp
  refine ⟨m₂, .cons ⟨_, a₁, hrun₁⟩ (.cons ⟨_, a₂, hrun₂⟩ (.nil _)), by decide, by decide, ?_⟩
  rintro ⟨es, hes, hall⟩
  have htrue : es.all (·.2.contains .writable) = true := List.all_eq_true.mpr hall
  rw [hes, Option.any_some, htrue] at hwalk
  cases hwalk

end Harmony
