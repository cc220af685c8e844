import Harmony.Boot.Load

/-!
# What the loader has placed so far

The state of an address space under construction, against the state `m₀` its L4 table was made in:
a list of placements, each a page with its frame, its flags and what the frame holds. `Placing` is
the invariant of the loader's loops. It ties together the page tables (a placed page walks to its
frame, and no other page of the lower half walks anywhere), the retype table (user frames are
`User` with one reference, tables are kernel frames, both were untyped) and memory (a filled frame
holds its bytes, a frame that was only claimed what it held before).

* `Placing.claim`, `Placing.install`, `Placing.fill`: the three things the loader does.
* `Untouched`: the part of it that holds wherever the loader stops.
-/

namespace Harmony

open Lib
open BumpAllocator (Claimed)

/-- The part of an L4 table that belongs to its address space alone. -/
def lowHalf (k : Fin 512) : Prop := (k : Nat) < 256

/-- What the frame of a placed page holds. -/
inductive Content where
  /-- The page was cleared and filled. -/
  | data (bytes : Nat → BitVec 8)
  /-- The page was mapped as the frame was. -/
  | stale
  /-- The frame is not the process's own. -/
  | window

/-- The frame was allocated for the process. -/
def Content.owned : Content → Bool
  | .data _ | .stale => true
  | .window => false

structure Placement where
  page : Page
  frame : RawFrame
  flags : PageTableFlags
  content : Content

/-- The flags of the tables on the way to a page of the process. -/
def parentEntry : PageTableFlags := userParents.union .present

/-- The contents of frame `f`: of `m` for a frame that was filled, of `m₀` for one that was not. -/
def Content.Holds (c : Content) (f : RawFrame) (m₀ m : Machine) : Prop :=
  match c with
  | .data bytes => ∀ i < pageSize, m.mem (f.base.addr + i) = bytes i
  | .stale => ∀ i < pageSize, m.mem (f.base.addr + i) = m₀.mem (f.base.addr + i)
  | .window => True

/-- The placement is there. -/
structure Placement.Holds (p : Placement) (root : Nat) (m₀ m : Machine) : Prop where
  low : lowHalf (p.page.key 4)
  aligned : p.frame.Aligned
  walks : ∃ ps, ps.length = 3 ∧ (∀ e ∈ ps, e.2.contains .present = true) ∧
    (p.content.owned = true → ∀ e ∈ ps, e.2 = parentEntry) ∧
    trailOf m.mem root p.page.keys = some (ps ++ [(p.frame, p.flags)])
  typed : p.content.owned = true →
    m₀.typing p.frame.number = some (.untyped, 0) ∧ m.typing p.frame.number = some (.user, 1)
  content : p.content.Holds p.frame m₀ m

/-- What holds wherever the loader stops: only frames that were untyped and the lower half of the
L4 table have been written, and only pages of the lower half have been mapped. -/
structure Untouched (root : Nat) (m₀ m : Machine) : Prop where
  cr3 : m.cr3 = m₀.cr3
  events : ∃ es, m.trace = es ++ m₀.trace ∧
    ∀ e ∈ es, ∃ page : Page, e = .mapTo page ∧ lowHalf (page.key 4)
  outside : ∀ x, m₀.typing (x / frameSize) ≠ some (.untyped, 0) →
    ¬ (x / frameSize = root ∧ x % frameSize / 8 < 256) → m.mem x = m₀.mem x

/-- **The invariant of the loader's loops.** -/
structure Placing (root : Nat) (m₀ : Machine) (placed : List Placement) (m : Machine) : Prop
    extends Untouched root m₀ m where
  rooted : Rooted lowHalf root m
  tables : ∀ ks n, TableAt lowHalf root m.mem ks n →
    n = root ∨ m₀.typing n = some (.untyped, 0)
  links : ∀ ks n k e, LinkAt lowHalf root m.mem ks n k e → e.2.contains .present = true
  typing : ∀ n, m.typing n = m₀.typing n ∨ (m₀.typing n = some (.untyped, 0) ∧
    (m.typing n = some (.kernel, 1) ∨ m.typing n = some (.user, 1)))
  stale : ∀ x, m.typing (x / frameSize) = some (.untyped, 0) → m.mem x = m₀.mem x
  holds : ∀ p ∈ placed, p.Holds root m₀ m
  complete : ∀ page : Page, lowHalf (page.key 4) → trailOf m.mem root page.keys ≠ none →
    ∃ p ∈ placed, p.page = page
  pages : placed.Pairwise fun p q => p.page ≠ q.page
  frames : placed.Pairwise fun p q =>
    p.content.owned = true → q.content.owned = true → p.frame ≠ q.frame

/-- Every table so far was made for pages of the process. -/
def OwnTables (root : Nat) (m : Machine) : Prop :=
  ∀ ks n k e, LinkAt lowHalf root m.mem ks n k e → e.2 = parentEntry

section Steps

variable {root : Nat} {m₀ m m' : Machine} {placed : List Placement} {f : RawFrame}

theorem Placing.untyped (h : Placing root m₀ placed m) {n : Nat}
    (hn : m.typing n = some (.untyped, 0)) : m₀.typing n = some (.untyped, 0) := by
  rcases h.typing n with heq | ⟨hu, _⟩
  · exact heq ▸ hn
  · exact hu

/-- Address `x` of frame `f`. -/
theorem div_frameSize (hf : f.Aligned) {i : Nat} (hi : i < pageSize) :
    (f.base.addr + i) / frameSize = f.number := by
  rw [hf.base_eq]
  simp only [frameSize, pageSize] at *
  omega

/-- What stays in the tree and in untyped frames leaves the rest alone. -/
theorem Placing.outside_of_contained (h : Placing root m₀ placed m) {mem : Mem}
    (hc : Contained lowHalf root m mem) (x : Nat)
    (hx : m₀.typing (x / frameSize) ≠ some (.untyped, 0))
    (hlow : ¬ (x / frameSize = root ∧ x % frameSize / 8 < 256)) : mem x = m₀.mem x := by
  rcases hc x with heq | hu | ⟨ks, k, hn, hs, hk⟩
  · exact heq.trans (h.outside x hx hlow)
  · exact absurd (h.untyped hu) hx
  · rcases h.tables ks _ hn with hroot | hu
    · -- the entry is one of the L4 table's, whose path is empty, so its key is in scope
      rw [hroot] at hn
      have hnil : ks = [] := h.rooted.tree.path_unique hn (Radix.node_root (by decide))
      subst hnil
      have hk256 : lowHalf k := hs
      unfold lowHalf at hk256
      exact absurd ⟨hroot, hk ▸ hk256⟩ hlow
    · exact absurd hu hx

/-- The process's frames are written by nobody else. -/
theorem Rooted.contained_user {scope : Fin 512 → Prop} (h : Rooted scope root m) {mem : Mem}
    (hc : Contained scope root m mem) {x c : Nat}
    (hx : m.typing (x / frameSize) = some (.user, c)) : mem x = m.mem x := by
  rcases hc x with heq | hu | ⟨ks, k, hn, _⟩
  · exact heq
  · rw [hx] at hu
    exact absurd hu (by simp)
  · exact absurd rfl (h.ne_of_typing hn hx (by decide))

/-- A placement is there as long as its walk, its frame's type and its frame's bytes are. -/
theorem Placement.Holds.congr {p : Placement} (h : p.Holds root m₀ m)
    (htr : trailOf m'.mem root p.page.keys = trailOf m.mem root p.page.keys)
    (hty : p.content.owned = true → m'.typing p.frame.number = m.typing p.frame.number)
    (hmem : p.content.owned = true →
      ∀ i < pageSize, m'.mem (p.frame.base.addr + i) = m.mem (p.frame.base.addr + i)) :
    p.Holds root m₀ m' where
  low := h.low
  aligned := h.aligned
  walks := by
    rw [htr]
    exact h.walks
  typed ho := ⟨(h.typed ho).1, (hty ho).trans (h.typed ho).2⟩
  content := by
    have hc := h.content
    cases hp : p.content with
    | data bytes =>
      rw [hp] at hc hmem
      exact fun i hi => (hmem rfl i hi).trans (hc i hi)
    | stale =>
      rw [hp] at hc hmem
      exact fun i hi => (hmem rfl i hi).trans (hc i hi)
    | window => trivial

/-- An untyped frame is no placed page's. -/
theorem Placement.Holds.frame_ne {p : Placement} (h : p.Holds root m₀ m)
    (hf : m.typing f.number = some (.untyped, 0)) (ho : p.content.owned = true) :
    p.frame.number ≠ f.number := by
  intro heq
  have hty := (h.typed ho).2
  rw [heq, hf] at hty
  exact absurd hty (by simp)

/-- Claiming a frame for the process. -/
theorem Placing.claim (h : Placing root m₀ placed m) (hc : Claimed .user m f m') :
    Placing root m₀ placed m' := by
  have hmem : m'.mem = m.mem := hc.mem_eq
  refine ⟨⟨?_, ?_, ?_⟩, ?_, ?_, ?_, ?_, ?_, ?_, ?_, h.pages, h.frames⟩
  · exact hc.cr3_eq.trans h.cr3
  · rw [hc.trace_eq]
    exact h.events
  · rw [hmem]
    exact h.outside
  · refine h.rooted.congr (fun x ks _ => congrFun hmem x) fun n c hn => hc.typing_ne ?_
    rintro rfl
    rw [hc.was_untyped] at hn
    exact absurd hn (by simp)
  · rw [hmem]
    exact h.tables
  · rw [hmem]
    exact h.links
  · intro n
    by_cases hn : n = f.number
    · subst hn
      exact Or.inr ⟨h.untyped hc.was_untyped, Or.inr hc.typing_self⟩
    · rw [hc.typing_ne hn]
      exact h.typing n
  · intro x hx
    have hne : x / frameSize ≠ f.number := by
      intro heq
      rw [heq, hc.typing_self] at hx
      exact absurd hx (by simp)
    rw [hc.typing_ne hne] at hx
    rw [hmem]
    exact h.stale x hx
  · intro p hp
    have hold := h.holds p hp
    refine hold.congr (by rw [hmem]) (fun ho => hc.typing_ne ?_) fun _ i _ => congrFun hmem _
    exact hold.frame_ne hc.was_untyped ho
  · rw [hmem]
    exact h.complete

end Steps

theorem PageTableFlags.contains_of_union_present (flags : PageTableFlags) :
    (flags.union .present).contains .present = true := by
  have hand : (flags.bits ||| present.bits) &&& present.bits = present.bits := by
    rw [BitVec.and_or_distrib_right, BitVec.and_self]
    ext i
    simp
  unfold contains union
  rw [hand, beq_self_eq_true]

section Install

variable {root : Nat} {m₀ m m' : Machine} {placed : List Placement} {page : Page}
  {frame : RawFrame} {flags parent : PageTableFlags}

/-- Where a call of `map_to` stops early, nothing else was touched. -/
theorem Placing.untouched_of_contained (h : Placing root m₀ placed m)
    (hlow : lowHalf (page.key 4)) (hcr3 : m'.cr3 = m.cr3)
    (htrace : m'.trace = .mapTo page :: m.trace) (hc : Contained lowHalf root m m'.mem) :
    Untouched root m₀ m' where
  cr3 := hcr3.trans h.cr3
  events := by
    obtain ⟨es, hes, hall⟩ := h.events
    refine ⟨.mapTo page :: es, ?_, ?_⟩
    · rw [htrace, hes]
      rfl
    · rintro e (_ | ⟨_, he⟩)
      · exact ⟨page, rfl, hlow⟩
      · exact hall e he
  outside := h.outside_of_contained hc

theorem Placing.untouched_of_stopped (h : Placing root m₀ placed m)
    (hlow : lowHalf (page.key 4))
    (hs : Stopped lowHalf root parent (m.noted (.mapTo page)) m') : Untouched root m₀ m' := by
  obtain ⟨m₁, hg, rfl | ⟨f, hc⟩⟩ := hs
  · exact h.untouched_of_contained hlow hg.cr3 hg.trace hg.contained
  · refine h.untouched_of_contained hlow (hc.cr3_eq.trans hg.cr3) (hc.trace_eq.trans hg.trace) ?_
    rw [hc.mem_eq]
    exact hg.contained

/-- Every table on the way to a page is present: `map_to` adds `PRESENT` to the parent flags. -/
theorem Placing.links_install (h : Placing root m₀ placed m)
    (hi : Installed lowHalf root page frame flags parent (m.noted (.mapTo page)) m')
    (ks : List (Fin 512)) (n : Nat) (k : Fin 512) (e : Mapping)
    (hl : LinkAt lowHalf root m'.mem ks n k e) : e.2.contains .present = true := by
  rcases hi.links ks n k e hl with hold | ⟨hflags, _⟩
  · exact h.links ks n k e hold
  · rw [hflags]
    exact parent.contains_of_union_present

/-- **A page installed is a page placed.** -/
theorem Placing.install (h : Placing root m₀ placed m) (hlow : lowHalf (page.key 4))
    (hi : Installed lowHalf root page frame flags parent (m.noted (.mapTo page)) m')
    {content : Content} (hnew : Placement.Holds ⟨page, frame, flags, content⟩ root m₀ m')
    (hfresh : ∀ p ∈ placed, p.content.owned = true → content.owned = true → p.frame ≠ frame) :
    Placing root m₀ (placed ++ [⟨page, frame, flags, content⟩]) m' := by
  -- an old page walks, and the new one did not
  have hne : ∀ p ∈ placed, p.page ≠ page := by
    rintro p hp rfl
    obtain ⟨ps, _, _, _, htr⟩ := (h.holds p hp).walks
    have hvac : trailOf m.mem root p.page.keys = none := hi.vacant
    rw [hvac] at htr
    exact absurd htr (by simp)
  have hothers : ∀ q : Page, lowHalf (q.key 4) → q ≠ page →
      trailOf m'.mem root q.keys = trailOf m.mem root q.keys :=
    fun q hq hqp => hi.others q.keys q.length_keys hq fun heq => hqp (Page.ext_keys heq)
  have hu : ∀ n, m'.typing n = some (.untyped, 0) → m.typing n = some (.untyped, 0) := by
    intro n hn
    rcases hi.retyped n with heq | ⟨hu, _⟩
    · exact heq.symm.trans hn
    · exact hu
  refine { toUntouched := h.untouched_of_contained hlow hi.cr3 hi.trace hi.contained
           rooted := hi.rooted, tables := ?_, links := h.links_install hi, typing := ?_
           stale := ?_, holds := ?_, complete := ?_, pages := ?_, frames := ?_ }
  · intro ks n hn
    rcases hi.tables ks n hn with hn | hn
    · exact h.tables ks n hn
    · exact Or.inr (h.untyped hn)
  · intro n
    rcases hi.retyped n with heq | ⟨hn, hk, _⟩
    · rw [heq]
      exact h.typing n
    · exact Or.inr ⟨h.untyped hn, Or.inl hk⟩
  · intro x hx
    exact (hi.stale x hx).trans (h.stale x (hu _ hx))
  · intro p hp
    rcases List.mem_append.mp hp with hp | hp
    · have hold := h.holds p hp
      refine hold.congr (hothers p.page hold.low (hne p hp)) (fun ho => ?_) fun ho i hi' => ?_
      · rcases hi.retyped p.frame.number with heq | ⟨hn, _⟩
        · exact heq
        · exact absurd rfl (hold.frame_ne hn ho)
      · refine h.rooted.contained_user (c := 1) hi.contained ?_
        rw [div_frameSize hold.aligned hi']
        exact (hold.typed ho).2
    · obtain rfl := List.mem_singleton.mp hp
      exact hnew
  · intro q hq htr
    by_cases hqp : q = page
    · exact ⟨_, List.mem_append_right _ List.mem_cons_self, hqp.symm⟩
    · rw [hothers q hq hqp] at htr
      obtain ⟨p, hp, hpage⟩ := h.complete q hq htr
      exact ⟨p, List.mem_append_left _ hp, hpage⟩
  · refine List.pairwise_append.mpr ⟨h.pages, List.pairwise_singleton _ _, ?_⟩
    rintro p hp q hq
    obtain rfl := List.mem_singleton.mp hq
    exact hne p hp
  · refine List.pairwise_append.mpr ⟨h.frames, List.pairwise_singleton _ _, ?_⟩
    rintro p hp q hq
    obtain rfl := List.mem_singleton.mp hq
    exact hfresh p hp

end Install

section Fill

variable {root : Nat} {m₀ m m' : Machine} {placed : List Placement} {page : Page} {f : RawFrame}
  {flags : PageTableFlags}

/-- Only the bytes of frame `f` changed. -/
structure FrameWrite (f : RawFrame) (m m' : Machine) : Prop where
  cr3 : m'.cr3 = m.cr3
  trace : m'.trace = m.trace
  typing : ∀ n, m'.typing n = m.typing n
  mem : ∀ x, x / frameSize ≠ f.number → m'.mem x = m.mem x

/-- A frame that is no table may be written: the tables stay as they are. -/
theorem FrameWrite.tables {scope : Fin 512 → Prop} {c : Nat} (hw : FrameWrite f m m')
    (hR : Rooted scope root m) (hf : m.typing f.number = some (.user, c)) :
    ∀ ks n, TableAt scope root m.mem ks n → ∀ j, entryOf m'.mem n j = entryOf m.mem n j :=
  entryOf_eq_of_tables fun x _ hn => hw.mem x (hR.ne_of_typing hn hf (by decide))

theorem FrameWrite.untouched (hw : FrameWrite f m m') (h : Untouched root m₀ m)
    (hf : m₀.typing f.number = some (.untyped, 0)) : Untouched root m₀ m' where
  cr3 := hw.cr3.trans h.cr3
  events := by
    rw [hw.trace]
    exact h.events
  outside x hx hlow := by
    refine (hw.mem x ?_).trans (h.outside x hx hlow)
    intro heq
    exact hx (heq.symm ▸ hf)

theorem OwnTables.write {c : Nat} (h : OwnTables root m) (hw : FrameWrite f m m')
    (hR : Rooted lowHalf root m) (hf : m.typing f.number = some (.user, c)) :
    OwnTables root m' :=
  fun ks n k e hl => h ks n k e ((Radix.link_congr (hw.tables hR hf)).mp hl)

/-- **A placed page is filled.** -/
theorem Placing.fill (h : Placing root m₀ (placed ++ [⟨page, f, flags, .stale⟩]) m)
    (hw : FrameWrite f m m') {bytes : Nat → BitVec 8}
    (hbytes : ∀ i < pageSize, m'.mem (f.base.addr + i) = bytes i) :
    Placing root m₀ (placed ++ [⟨page, f, flags, .data bytes⟩]) m' := by
  have hlast := h.holds _ (List.mem_append_right placed List.mem_cons_self)
  obtain ⟨hf₀, hf⟩ := hlast.typed rfl
  have hag := hw.tables h.rooted hf
  have htr : ∀ q : Page, lowHalf (q.key 4) →
      trailOf m'.mem root q.keys = trailOf m.mem root q.keys :=
    fun q hq => Radix.trail_congr hag (Nat.le_of_eq q.length_keys) hq
  obtain ⟨hpages, _, hpages'⟩ := List.pairwise_append.mp h.pages
  obtain ⟨hframes, _, hframes'⟩ := List.pairwise_append.mp h.frames
  refine { toUntouched := hw.untouched h.toUntouched hf₀
           rooted := ⟨Radix.tree_congr hag h.rooted.tree, ?_⟩, tables := ?_
           links := fun ks n k e hl => h.links ks n k e ((Radix.link_congr hag).mp hl), typing := ?_
           stale := ?_, holds := ?_, complete := ?_, pages := ?_, frames := ?_ }
  · intro ks n hn
    rw [hw.typing]
    exact h.rooted.typed ks n ((Radix.node_congr hag).mp hn)
  · intro ks n hn
    exact h.tables ks n ((Radix.node_congr hag).mp hn)
  · intro n
    rw [hw.typing]
    exact h.typing n
  · intro x hx
    rw [hw.typing] at hx
    refine (hw.mem x ?_).trans (h.stale x hx)
    intro heq
    rw [heq, hf] at hx
    exact absurd hx (by simp)
  · intro p hp
    rcases List.mem_append.mp hp with hp | hp
    · have hold := h.holds p (List.mem_append_left _ hp)
      refine hold.congr (htr p.page hold.low) (fun _ => hw.typing _) fun ho i hi => hw.mem _ ?_
      rw [div_frameSize hold.aligned hi]
      intro heq
      exact hframes' p hp _ List.mem_cons_self ho rfl
        (RawFrame.ext_number hold.aligned hlast.aligned heq)
    · obtain rfl := List.mem_singleton.mp hp
      refine ⟨hlast.low, hlast.aligned, ?_, fun _ => ⟨hf₀, (hw.typing _).trans hf⟩, hbytes⟩
      rw [htr page hlast.low]
      exact hlast.walks
  · intro q hq hsome
    rw [htr q hq] at hsome
    obtain ⟨p, hp, hpage⟩ := h.complete q hq hsome
    rcases List.mem_append.mp hp with hp | hp
    · exact ⟨p, List.mem_append_left _ hp, hpage⟩
    · obtain rfl := List.mem_singleton.mp hp
      exact ⟨_, List.mem_append_right _ List.mem_cons_self, hpage⟩
  · refine List.pairwise_append.mpr ⟨hpages, List.pairwise_singleton _ _, fun p hp q hq => ?_⟩
    obtain rfl := List.mem_singleton.mp hq
    exact hpages' p hp ⟨page, f, flags, .stale⟩ List.mem_cons_self
  · refine List.pairwise_append.mpr ⟨hframes, List.pairwise_singleton _ _, fun p hp q hq => ?_⟩
    obtain rfl := List.mem_singleton.mp hq
    exact hframes' p hp ⟨page, f, flags, .stale⟩ List.mem_cons_self

end Fill

/-! ## Pages of the process and pages of the window -/

section Map

variable {env : Env} {root : Nat} {m₀ m m' : Machine} {placed : List Placement} {page : Page}
  {f : RawFrame} {flags : PageTableFlags}

/-- A frame claimed for the process and not yet mapped. -/
structure Pending (m₀ : Machine) (placed : List Placement) (f : RawFrame) (m : Machine) : Prop where
  aligned : f.Aligned
  was_untyped : m₀.typing f.number = some (.untyped, 0)
  typed : m.typing f.number = some (.user, 1)
  fresh : ∀ p ∈ placed, p.content.owned = true → p.frame ≠ f
  stale : ∀ i < pageSize, m.mem (f.base.addr + i) = m₀.mem (f.base.addr + i)

theorem Placing.pending (h : Placing root m₀ placed m) (hc : Claimed .user m f m') :
    Pending m₀ placed f m' where
  aligned := hc.aligned
  was_untyped := h.untyped hc.was_untyped
  typed := hc.typing_self
  fresh p hp ho heq := (h.holds p hp).frame_ne hc.was_untyped ho (congrArg RawFrame.number heq)
  stale i hi := by
    rw [hc.mem_eq]
    refine h.stale _ ?_
    rw [div_frameSize hc.aligned hi]
    exact hc.was_untyped

theorem OwnTables.claim (h : OwnTables root m) (hc : Claimed .user m f m') : OwnTables root m' := by
  unfold OwnTables
  rw [hc.mem_eq]
  exact h

/-- Tables made for a page of the process have the process's parent flags. -/
theorem OwnTables.install {frame : RawFrame} (h : OwnTables root m)
    (hi : Installed lowHalf root page frame flags userParents (m.noted (.mapTo page)) m') :
    OwnTables root m' := by
  intro ks n k e hl
  rcases hi.links ks n k e hl with hl | ⟨hflags, _⟩
  · exact h ks n k e hl
  · exact hflags

/-- **Mapping a page of the process.** -/
theorem Placing.wp_mapOwned (h : Placing root m₀ placed m) (hown : OwnTables root m)
    (hp : Pending m₀ placed f m) (hlow : lowHalf (page.key 4)) (hflags : flags.bits ≠ 0)
    (a : BumpAllocator) :
    wp (mapTo env page f flags userParents (root * frameSize) a)
      (fun r m' => match r.1 with
        | .ok () => Placing root m₀ (placed ++ [⟨page, f, flags, .stale⟩]) m' ∧ OwnTables root m'
        | .error _ => Untouched root m₀ m')
      (fun _ m' => Untouched root m₀ m') m := by
  refine wp_mono (wp_mapTo hp.aligned (Or.inr hflags) hlow h.rooted a) ?_
    fun _ _ hs => h.untouched_of_stopped hlow hs
  rintro ⟨r, a'⟩ m' hr
  cases r with
  | error e =>
    have hg : Grown lowHalf root userParents (m.noted (.mapTo page)) m' := hr
    exact h.untouched_of_contained hlow hg.cr3 hg.trace hg.contained
  | ok u =>
    have hi : Installed lowHalf root page f flags userParents (m.noted (.mapTo page)) m' := hr
    have hown' := hown.install hi
    have htyped : m'.typing f.number = some (.user, 1) := by
      rcases hi.retyped f.number with heq | ⟨hu, _⟩
      · exact heq.trans hp.typed
      · rw [Machine.noted_typing, hp.typed] at hu
        exact absurd hu (by simp)
    refine ⟨h.install hlow hi ⟨hlow, hp.aligned, ?_, fun _ => ⟨hp.was_untyped, htyped⟩, ?_⟩
      fun p hp' ho _ => hp.fresh p hp' ho, hown'⟩
    · obtain ⟨ps, hlen, hlinks, htr⟩ := hi.installed
      refine ⟨ps, hlen, fun e he => ?_, fun _ e he => ?_, htr⟩ <;>
        obtain ⟨ks, n, k, hl⟩ := hlinks e he
      · exact h.links_install hi ks n k e hl
      · exact hown' ks n k e hl
    · intro i hi'
      refine (h.rooted.contained_user (c := 1) hi.contained ?_).trans (hp.stale i hi')
      rw [div_frameSize hp.aligned hi']
      exact hp.typed

/-- **Mapping a page of the window**: any frame, with any tables on the way. -/
theorem Placing.wp_mapWindow (h : Placing root m₀ placed m) (hf : f.Aligned)
    (hlow : lowHalf (page.key 4)) (a : BumpAllocator) :
    wp (mapTo env page f .present .present (root * frameSize) a)
      (fun r m' => match r.1 with
        | .ok () => Placing root m₀ (placed ++ [⟨page, f, .present, .window⟩]) m'
        | .error _ => Untouched root m₀ m')
      (fun _ m' => Untouched root m₀ m') m := by
  refine wp_mono (wp_mapTo hf (Or.inr (by decide)) hlow h.rooted a) ?_
    fun _ _ hs => h.untouched_of_stopped hlow hs
  rintro ⟨r, a'⟩ m' hr
  cases r with
  | error e =>
    have hg : Grown lowHalf root .present (m.noted (.mapTo page)) m' := hr
    exact h.untouched_of_contained hlow hg.cr3 hg.trace hg.contained
  | ok u =>
    have hi : Installed lowHalf root page f .present .present (m.noted (.mapTo page)) m' := hr
    refine h.install hlow hi ⟨hlow, hf, ?_, fun ho => absurd ho (by simp [Content.owned]), trivial⟩
      fun p _ _ ho => absurd ho (by simp [Content.owned])
    obtain ⟨ps, hlen, hlinks, htr⟩ := hi.installed
    refine ⟨ps, hlen, fun e he => ?_, fun ho => absurd ho (by simp [Content.owned]), htr⟩
    obtain ⟨ks, n, k, hl⟩ := hlinks e he
    exact h.links_install hi ks n k e hl

end Map

end Harmony
