import Harmony.Lib.Run
import Harmony.Paging.Failure

/-!
# An address space is a partial map

What an address space is for, without its tables: a partial map from pages to frames with flags. A
page is mapped once; asking again is refused with the frame that is there; and when no frame is left
for a table, nothing is mapped.

* `AddressSpace.Maps`: that, as a step.
* **`mapping_runs_refine`**: every run of `map_to` calls on a well-formed tree of tables is such a
  run, answer by answer, and from every state it reaches a call gets the answer the map calls for.

Out of scope are `parent_flags` with `HUGE_PAGE`, which no caller in the kernel passes, and entries
that are zero as a word.
-/

namespace Harmony

open Lib

/-- A partial map from pages to frames with flags. -/
abbrev AddressSpace := Page → Option Mapping

/-- A call of `map_to`, with its answer. -/
structure MapRequest where
  page : Page
  frame : RawFrame
  flags : PageTableFlags
  parentFlags : PageTableFlags
  result : Except MapperError Unit

/-- What a call does to the map. -/
inductive AddressSpace.Maps (S : AddressSpace) (c : MapRequest) : AddressSpace → Prop
  | mapped (hvacant : S c.page = none) (hok : c.result = .ok ()) :
      Maps S c (Function.update S c.page (some (c.frame, c.flags)))
  | occupied {e : Mapping} (hthere : S c.page = some e)
      (hrefused : c.result = .error (.alreadyMapped e.1)) : Maps S c S
  | exhausted (hvacant : S c.page = none) (hnone : c.result = .error .frameAllocationError) :
      Maps S c S

theorem AddressSpace.Maps.of_ok {S S' : AddressSpace} {c : MapRequest}
    (h : AddressSpace.Maps S c S')
    (hok : c.result = .ok ()) : S' = Function.update S c.page (some (c.frame, c.flags)) := by
  cases h with
  | mapped => rfl
  | occupied _ hrefused => cases hok.symm.trans hrefused
  | exhausted _ hnone => cases hok.symm.trans hnone

/-- The frame and flags make an entry, and `parent_flags` makes a table entry. -/
structure MapRequest.Valid (c : MapRequest) : Prop where
  frame : c.frame.Aligned
  entry : c.frame.base.addr ≠ 0 ∨ c.flags.bits ≠ 0
  parent : c.parentFlags.contains .hugePage = false

/-- The call as the code makes it, on the L4 table in frame `l4`. -/
def MapRequest.Step (env : Env) (l4 : RawFrame) (s : BumpAllocator × Machine) (c : MapRequest)
    (t : BumpAllocator × Machine) : Prop :=
  c.Valid ∧ mapTo env c.page c.frame c.flags c.parentFlags l4.base.addr s.1 s.2 =
    .ok (c.result, t.1) t.2

/-! ## The walk of a page, without huge pages -/

section Walk

variable {l4 : RawFrame} {m : Machine}

theorem WellFormed.tabled (h : WellFormed l4 m) : Tabled l4.number m := by
  have hle : ∀ n k e, openEntry m.mem n k = some e → entryOf m.mem n k = some e :=
    fun _ _ _ he => (openEntry_eq_some.mp he).1
  refine ⟨h.rooted.tree.of_fewer hle, fun ks n hn => ?_⟩
  obtain ⟨c, hc, _⟩ := h.rooted.typed ks n (hn.mono hle)
  exact ⟨c, hc⟩

/-- From a table on the page's way, the walk ends in the last entry of the way, or where it is
missing. -/
theorem walkEnd_of_noHuge {root : Nat} {mem : Mem} (hno : NoHuge (fun _ => True) root mem)
    (page : Page) (lower : Nat) :
    ∀ (ks : List (Fin 512)) (n : Nat), ks ++ page.keysFrom (lower + 1) = page.keys →
      TableAt (fun _ => True) root mem ks n →
      (∀ es, trailOf mem n (page.keysFrom (lower + 1)) = some es →
        ∃ e, es.getLast? = some e ∧ walkEnd mem page (lower + 1) n = .mapped e) ∧
      (trailOf mem n (page.keysFrom (lower + 1)) = none →
        ∃ top, walkEnd mem page (lower + 1) n = .missing top) := by
  induction lower with
  | zero =>
    intro ks n _ _
    unfold Page.keysFrom trailOf
    rw [Radix.trail_cons]
    cases he : entryOf mem n (page.key 1) with
    | none =>
      refine ⟨fun es hes => ?_, fun _ => ⟨1, walkEnd_of_none he⟩⟩
      cases hes
    | some e =>
      refine ⟨fun es hes => ?_, fun hnone => ?_⟩
      · obtain rfl := Option.some.inj hes
        exact ⟨e, rfl, walkEnd_bottom he⟩
      · cases hnone
  | succ lower ih =>
    intro ks n hks hn
    unfold Page.keysFrom trailOf
    rw [Radix.trail_cons]
    cases he : entryOf mem n (page.key (lower + 2)) with
    | none =>
      refine ⟨fun es hes => ?_, fun _ => ⟨_, walkEnd_of_none he⟩⟩
      cases hes
    | some e =>
      obtain ⟨hks', hs, hin⟩ := Page.open_step (Nat.succ_pos lower) hks
      have hlink : LinkAt (fun _ => True) root mem ks n (page.key (lower + 2)) e :=
        ⟨hin, hs, hn, he⟩
      have hfollow := walkEnd_follow (Nat.succ_pos lower) he (hno _ _ _ _ hlink)
      obtain ⟨hsome, hnone⟩ := ih _ _ hks' hlink.node
      rw [Option.bind_some, hfollow]
      refine ⟨fun es hes => ?_, fun hmap => hnone (Option.map_eq_none_iff.mp hmap)⟩
      obtain ⟨rest, hrest, rfl⟩ := Option.map_eq_some_iff.mp hes
      obtain ⟨last, hlast, hend⟩ := hsome rest hrest
      refine ⟨last, ?_, hend⟩
      rw [List.getLast?_cons, hlast]
      rfl

variable {page : Page}

/-- A page that is mapped: the walk ends there. -/
theorem WellFormed.walkOf_of_some (h : WellFormed l4 m) {e : Mapping}
    (he : translate m.mem l4 page = some e) : walkOf m.mem l4 page = .mapped e := by
  unfold translate at he
  rw [walk_eq_trail _ h.aligned] at he
  obtain ⟨es, hes, hlast⟩ := Option.bind_eq_some_iff.mp he
  obtain ⟨e', he', hend⟩ := (walkEnd_of_noHuge h.noHuge page 3 [] l4.number rfl
    (Radix.node_root (by decide))).1 es hes
  obtain rfl := Option.some.inj (hlast.symm.trans he')
  exact hend

/-- A page that is not mapped: the walk misses an entry. -/
theorem WellFormed.walkOf_of_none (h : WellFormed l4 m) (he : translate m.mem l4 page = none) :
    ∃ top, walkOf m.mem l4 page = .missing top := by
  have hway := walkEnd_of_noHuge h.noHuge page 3 [] l4.number rfl
    (Radix.node_root (by decide))
  unfold translate at he
  rw [walk_eq_trail _ h.aligned] at he
  cases htrail : trailOf m.mem l4.number page.keys with
  | none => exact hway.2 htrail
  | some es =>
    obtain ⟨e, hlast, _⟩ := hway.1 es htrail
    rw [htrail, Option.bind_some, hlast] at he
    cases he

/-- The other way round. -/
theorem WellFormed.vacant (h : WellFormed l4 m) {top : Nat}
    (hwalk : walkOf m.mem l4 page = .missing top) : translate m.mem l4 page = none := by
  cases he : translate m.mem l4 page with
  | none => rfl
  | some e => cases hwalk.symm.trans (h.walkOf_of_some he)

end Walk

/-! ## One call -/

section Call

variable {env : Env} {l4 frame : RawFrame} {m m' : Machine} {page : Page}
  {flags parent : PageTableFlags}

theorem Installed.translate_eq (hl4 : l4.Aligned)
    (h : Installed (fun _ => True) l4.number page frame flags parent m m') :
    translate m'.mem l4 = Function.update (translate m.mem l4) page (some (frame, flags)) := by
  funext q
  unfold translate
  rw [walk_eq_trail _ hl4]
  by_cases hq : q = page
  · subst hq
    obtain ⟨ps, _, _, htrail⟩ := h.installed
    rw [Function.update_self, htrail, Option.bind_some, List.getLast?_concat]
  · rw [Function.update_of_ne hq, walk_eq_trail _ hl4,
      h.others q.keys q.length_keys trivial fun hkeys => hq (Page.ext_keys hkeys)]

theorem Grown.translate_eq (hl4 : l4.Aligned)
    (h : Grown (fun _ => True) l4.number parent m m') :
    translate m'.mem l4 = translate m.mem l4 := by
  funext q
  unfold translate
  rw [walk_eq_trail _ hl4, walk_eq_trail _ hl4]
  exact congrArg (·.bind List.getLast?) (h.grows.full q.keys q.length_keys trivial)

theorem Grown.wellFormed (hwf : WellFormed l4 m) (hparent : parent.contains .hugePage = false)
    (h : Grown (fun _ => True) l4.number parent m m') : WellFormed l4 m' := by
  refine ⟨hwf.aligned, h.rooted, fun ks n k e hl => ?_⟩
  rcases h.grows.link_new ks n k e hl with hold | ⟨hflags, _⟩
  · exact hwf.noHuge ks n k e hold
  · rw [hflags, PageTableFlags.contains_union_present parent rfl]
    exact hparent

/-- **One call is one step of the map**, and leaves the tables well-formed. -/
theorem WellFormed.maps {s t : BumpAllocator × Machine} {c : MapRequest} (h : WellFormed l4 s.2)
    (hc : c.Step env l4 s t) :
    AddressSpace.Maps (translate s.2.mem l4) c (translate t.2.mem l4) ∧ WellFormed l4 t.2 := by
  obtain ⟨⟨hframe, hentry, hparent⟩, hrun⟩ := hc
  rw [h.aligned.base_eq] at hrun
  have hnoted : WellFormed l4 (s.2.noted (.mapTo c.page)) := ⟨h.aligned, h.rooted.noted, h.noHuge⟩
  have hverdict :=
    (wp_ok (mapTo_verdict env c.page c.frame c.flags c.parentFlags h.tabled s.1) hrun).1
  have hend := wp_ok (wp_mapTo hframe hentry trivial h.rooted s.1) hrun
  rcases hverdict.cases with
    ⟨⟨top, hwalk⟩, hok | hnone⟩ | ⟨level, e, hwalk, _⟩ | ⟨e, hwalk, heq, hm⟩
  · replace hok : c.result = .ok () := hok
    simp only [hok] at hend
    rw [hend.translate_eq h.aligned]
    exact ⟨.mapped (h.vacant hwalk) hok, h.aligned, hend.rooted,
      (noHuge_iff hnoted hend).mpr (.inl hparent)⟩
  · replace hnone : c.result = .error .frameAllocationError := hnone
    simp only [hnone] at hend
    rw [hend.translate_eq h.aligned]
    exact ⟨.exhausted (h.vacant hwalk) hnone, hend.wellFormed hnoted hparent⟩
  · -- there is no huge page to meet
    cases htranslate : translate s.2.mem l4 c.page with
    | none =>
      obtain ⟨top, hmissing⟩ := h.walkOf_of_none htranslate
      cases hwalk.symm.trans hmissing
    | some e' => cases hwalk.symm.trans (h.walkOf_of_some htranslate)
  · have hthere : translate s.2.mem l4 c.page = some e := by
      cases htranslate : translate s.2.mem l4 c.page with
      | none =>
        obtain ⟨top, hmissing⟩ := h.walkOf_of_none htranslate
        cases hwalk.symm.trans hmissing
      | some e' =>
        obtain rfl := WalkEnd.mapped.inj (hwalk.symm.trans (h.walkOf_of_some htranslate))
        rfl
    rw [hm]
    exact ⟨.occupied hthere (congrArg Prod.fst heq), hnoted⟩

/-- **What a call leaves to the allocator**: it takes a frame for each missing table, three at most.
-/
theorem mapTo_stock {root : Nat} (hT : Tabled root m) {a : BumpAllocator} (ha : Searchable a m) :
    wp (mapTo env page frame flags parent (root * frameSize) a)
      (fun r m' => Searchable r.2 m' ∧ m'.retypeMap.length = m.retypeMap.length ∧
        (m.freeFrom a.index).card ≤ (m'.freeFrom r.2.index).card + 3)
      (fun _ _ => True) m := by
  refine wp_mono (mapTo_descends env page frame flags parent root a m) ?_ fun _ _ _ => trivial
  rintro r m' ⟨s, hs, hend⟩
  have ha' : Searchable a (m.noted (.mapTo page)) := ⟨ha.addressable, ha.cursor⟩
  have hprogress := (Progress.start page root a (m.noted (.mapTo page))).descent hT.noted hs
  have hlength : s.machine.retypeMap.length = m.retypeMap.length := hprogress.length_eq
  cases hend with
  | mapped hl he =>
    obtain ⟨hm, hcursor, _⟩ := hprogress.met he
    rw [hm, hcursor]
    exact ⟨ha', rfl, Nat.le_add_right _ _⟩
  | huge hl he hhuge =>
    obtain ⟨hm, hcursor, _⟩ := hprogress.met he
    rw [hm, hcursor]
    exact ⟨ha', rfl, Nat.le_add_right _ _⟩
  | exhausted hl he halloc =>
    obtain ⟨top, _, hwalk, hstock⟩ := hprogress.missing (by omega) he
    have hst := hstock ha'
    obtain ⟨_, hcursor, _⟩ := wp_ok (allocKernelFrame_answers env hst.searchable) halloc
    refine ⟨⟨hst.searchable.addressable, Nat.le_of_eq hcursor⟩, hlength, ?_⟩
    -- the frames that were free have all become tables
    have hcount := hst.count
    have htop : top ≤ 4 := walkEnd_le hwalk
    have hnone : (s.machine.freeFrom s.allocator.index).card = 0 := by
      rw [freeFrom_of_none hst.searchable halloc, Finset.card_empty]
    rw [hst.skipped] at hnone
    have hsame : (m.freeFrom a.index).card = ((m.noted (.mapTo page)).freeFrom a.index).card := rfl
    omega
  | written hl he =>
    obtain ⟨top, _, hwalk, hstock⟩ := hprogress.missing (by omega) he
    have hst := hstock ha'
    refine ⟨⟨hst.searchable.addressable, hst.searchable.cursor⟩, hlength, ?_⟩
    have hcount := hst.count
    have htop : top ≤ 4 := walkEnd_le hwalk
    rw [← hst.skipped] at hcount
    calc (m.freeFrom a.index).card
        = (s.machine.freeFrom s.allocator.index).card + (top - s.level) := hcount
      _ ≤ (s.machine.freeFrom s.allocator.index).card + 3 := by omega

/-- **A call is answered**, as the map calls for: the frame that is there, or `Ok` where there are
three frames left for tables. -/
theorem WellFormed.answers (h : WellFormed l4 m) (hcov : ¬ Uncovered env m) {a : BumpAllocator}
    (ha : a.index ≤ m.retypeMap.length) (page : Page) (frame : RawFrame)
    (flags parent : PageTableFlags) :
    ∃ result a' m', mapTo env page frame flags parent l4.base.addr a m = .ok (result, a') m' ∧
      (∀ e, translate m.mem l4 page = some e → result = .error (.alreadyMapped e.1)) ∧
      (translate m.mem l4 page = none → 3 ≤ (m.freeFrom a.index).card → result = .ok ()) := by
  rw [h.aligned.base_eq]
  have hwp := mapTo_verdict env page frame flags parent h.tabled a
  obtain ⟨⟨result, a'⟩, m', hrun, hverdict, _⟩ := exists_of_wp
    (wp_mono hwp (fun _ _ h => h) fun _ _ hpanic =>
      hpanic.elim hcov fun hpast => absurd ha (Nat.not_le_of_lt hpast.1))
  refine ⟨result, a', m', hrun, fun e he => ?_, fun hnone hfree => ?_⟩
  · have hwalk := h.walkOf_of_some he
    rcases hverdict.cases with ⟨⟨_, hother⟩, _⟩ | ⟨_, _, hother, _⟩ | ⟨e', hother, heq, _⟩
    · cases hwalk.symm.trans hother
    · cases hwalk.symm.trans hother
    · obtain rfl := WalkEnd.mapped.inj (hwalk.symm.trans hother)
      exact congrArg Prod.fst heq
  · obtain ⟨top, hwalk⟩ := h.walkOf_of_none hnone
    have htop : top ≤ 4 := walkEnd_le hwalk
    obtain ⟨a₂, m₂, hok⟩ : ∃ a₂ m₂, mapTo env page frame flags parent (l4.number * frameSize) a m =
        .ok (.ok (), a₂) m₂ := mapTo_of_enough h.tabled hcov ha hwalk (by omega)
    rw [hrun] at hok
    injection hok with hpair _
    exact congrArg Prod.fst hpair

end Call

/-! ## The runs -/

section Runs

variable {env : Env} {l4 : RawFrame}

/-- A state of the allocator and the memory, and the address space it stands for. -/
structure Represents (env : Env) (l4 : RawFrame) (s : BumpAllocator × Machine) (S : AddressSpace) :
    Prop where
  tables : WellFormed l4 s.2
  covered : ¬ Uncovered env s.2
  cursor : s.1.index ≤ s.2.retypeMap.length
  view : translate s.2.mem l4 = S

theorem Represents.step {s t : BumpAllocator × Machine} {S : AddressSpace} {c : MapRequest}
    (h : Represents env l4 s S) (hc : c.Step env l4 s t) :
    (∃ S', AddressSpace.Maps S c S' ∧ Represents env l4 t S') ∧
      (s.2.freeFrom s.1.index).card ≤ (t.2.freeFrom t.1.index).card + 3 := by
  obtain ⟨hmaps, ht⟩ := h.tables.maps hc
  have hrun := hc.2
  rw [h.tables.aligned.base_eq] at hrun
  obtain ⟨hsearch, hlength, hstock⟩ :=
    wp_ok (mapTo_stock h.tables.tabled (searchable_of_covered h.covered h.cursor)) hrun
  rw [h.view] at hmaps
  refine ⟨⟨_, hmaps, ht, ?_, hsearch.cursor, rfl⟩, hstock⟩
  unfold Uncovered
  rw [hlength]
  exact h.covered

theorem Represents.run {s t : BumpAllocator × Machine} {S : AddressSpace} {cs : List MapRequest}
    (h : Represents env l4 s S) (hrun : Run (MapRequest.Step env l4) s cs t) :
    (∃ S', Run AddressSpace.Maps S cs S' ∧ Represents env l4 t S') ∧
      (s.2.freeFrom s.1.index).card ≤ (t.2.freeFrom t.1.index).card + 3 * cs.length := by
  induction hrun generalizing S with
  | nil => exact ⟨⟨S, .nil S, h⟩, Nat.le_add_right _ _⟩
  | cons hc _ ih =>
    obtain ⟨⟨S₁, hmaps, h₁⟩, hstock₁⟩ := h.step hc
    obtain ⟨⟨S', hruns, h'⟩, hstock'⟩ := ih h₁
    refine ⟨⟨S', .cons hmaps hruns, h'⟩, ?_⟩
    rw [List.length_cons]
    omega

end Runs

/-- **An address space is a partial map.** Every run of `map_to` calls, in any order and with any
answers, is a run of the map, for three frames a call at most; and in every state it reaches any
further call is answered, with the frame that is there or, while three frames are left, with `Ok`.
-/
theorem mapping_runs_refine {env : Env} {l4 : RawFrame} {a a' : BumpAllocator} {m m' : Machine}
    {cs : List MapRequest} (h : WellFormed l4 m) (hcov : ¬ Uncovered env m)
    (ha : a.index ≤ m.retypeMap.length) (hrun : Run (MapRequest.Step env l4) (a, m) cs (a', m')) :
    Run AddressSpace.Maps (translate m.mem l4) cs (translate m'.mem l4) ∧ WellFormed l4 m' ∧
      (m.freeFrom a.index).card ≤ (m'.freeFrom a'.index).card + 3 * cs.length ∧
      ∀ (page : Page) (frame : RawFrame) (flags parent : PageTableFlags),
        ∃ result a'' m'', mapTo env page frame flags parent l4.base.addr a' m' =
            .ok (result, a'') m'' ∧
          (∀ e, translate m'.mem l4 page = some e → result = .error (.alreadyMapped e.1)) ∧
          (translate m'.mem l4 page = none → 3 ≤ (m'.freeFrom a'.index).card →
            result = .ok ()) := by
  have hstart : Represents env l4 (a, m) (translate m.mem l4) := ⟨h, hcov, ha, rfl⟩
  obtain ⟨⟨S, hmaps, hend⟩, hstock⟩ := hstart.run hrun
  obtain rfl := hend.view
  exact ⟨hmaps, hend.tables, hstock, fun page frame flags parent =>
    hend.tables.answers hend.covered hend.cursor page frame flags parent⟩

def mapZero (result : Except MapperError Unit) : MapRequest :=
  ⟨pageZero, frameOne, .present, .writable, result⟩

theorem mapZero_step {result : Except MapperError Unit} {s t : BumpAllocator × Machine}
    (hrun : mapTo Env.dev pageZero frameOne .present .writable frameOne.base.addr s.1 s.2 =
      .ok (result, t.1) t.2) : (mapZero result).Step Env.dev frameOne s t := by
  have hal : frameOne.Aligned := rfl
  have hentry : frameOne.base.addr ≠ 0 := by decide
  have hparent : PageTableFlags.writable.contains .hugePage = false := by decide
  exact ⟨⟨hal, .inl hentry, hparent⟩, hrun⟩

/-- A page is mapped and then asked for once more: the second call finds the first one's frame. -/
theorem mapping_runs_refine_blankSpace :
    ∃ m', Run AddressSpace.Maps (translate blankSpace.mem frameOne)
        [mapZero (.ok ()), mapZero (.error (.alreadyMapped frameOne))] (translate m'.mem frameOne) ∧
      WellFormed frameOne m' := by
  obtain ⟨a₁, m₁, hfirst⟩ : ∃ a' m', mapTo Env.dev pageZero frameOne .present .writable
      frameOne.base.addr .new blankSpace = .ok (.ok (), a') m' := ⟨_, _, by with_unfolding_all rfl⟩
  have hcov : ¬ Uncovered Env.dev blankSpace := by
    unfold Uncovered
    decide
  have hstep : (mapZero (.ok ())).Step Env.dev frameOne (.new, blankSpace) (a₁, m₁) :=
    mapZero_step hfirst
  obtain ⟨hmaps, _, _, hanswers⟩ := mapping_runs_refine blankSpace_wellFormed hcov (Nat.zero_le _)
    (.cons hstep (.nil _))
  have hthere : translate m₁.mem frameOne pageZero = some (frameOne, .present) := by
    obtain ⟨S, hc, hnil⟩ := hmaps.cons_inv
    cases hnil
    rw [hc.of_ok rfl]
    exact Function.update_self ..
  obtain ⟨result, a₂, m₂, hsecond, hfound, _⟩ := hanswers pageZero frameOne .present .writable
  obtain rfl := hfound _ hthere
  have hstep₂ :
      (mapZero (.error (.alreadyMapped frameOne))).Step Env.dev frameOne (a₁, m₁) (a₂, m₂) :=
    mapZero_step hsecond
  obtain ⟨hboth, hwf, _⟩ := mapping_runs_refine blankSpace_wellFormed hcov (Nat.zero_le _)
    (.cons hstep (.cons hstep₂ (.nil _)))
  exact ⟨m₂, hboth, hwf⟩

end Harmony
