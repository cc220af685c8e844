import Harmony.Boot.Setup
import Harmony.Boot.Headers
import Harmony.Paging.Alignment
import Harmony.Paging.Tables

/-!
# What it takes to load a process

`Process::load` by its costs. Every page of a segment and of the stack takes a user frame, every
page of the process the tables of its walk that no page before it has needed, and no frame is taken
for anything else; so the frames left, the frames given out and the tables made add up to the same
number all the way (`Accounted`). Each turn of the loader's loops goes through or there was no way
to afford it, and since what is needed only grows, what one turn lacks the whole load lacks.

* `Accounted.claim`, `Accounted.map`, `Accounted.write`: the three things the loader does.
* `Accounted.wp_segmentPage`, `wp_stackPage`, `wp_windowPage`: one turn of each loop, with the
  checks it makes.
* `Accounted.wp_place`: all pages are placed, or they cannot be.

Page numbers stand for pages (`allPages`), and `tableCount` for the tables.
-/

namespace Harmony

open Lib
open BumpAllocator (Claimed)

/-! ## What is asked for -/

/-- The numbers of the pages that `[start, stop)` lies on. -/
def pagesIn (start stop : Nat) : List Nat :=
  if start < stop then
    List.range' (start / pageSize) ((stop - 1) / pageSize + 1 - start / pageSize)
  else []

/-- The pages of a segment. -/
def ProgramHeader.pages (ph : ProgramHeader) : List Nat := pagesIn ph.vaddr (ph.vaddr + ph.memsz)

/-- Turn by turn. -/
theorem pagesIn_of_lt {v stop : Nat} (h : v < stop) :
    pagesIn v stop = v / pageSize :: pagesIn (v + (pageSize - v % pageSize)) stop := by
  have hnext : (v + (pageSize - v % pageSize)) / pageSize = v / pageSize + 1 := by
    simp only [pageSize]
    omega
  unfold pagesIn
  rw [if_pos h, hnext]
  split_ifs with hmore
  · have hcount : (stop - 1) / pageSize + 1 - v / pageSize =
        ((stop - 1) / pageSize + 1 - (v / pageSize + 1)) + 1 := by
      simp only [pageSize] at *
      omega
    rw [hcount, List.range'_succ]
  · have hcount : (stop - 1) / pageSize + 1 - v / pageSize = 1 := by
      simp only [pageSize] at *
      omega
    rw [hcount, List.range'_one]

theorem pagesIn_of_le {v stop : Nat} (h : stop ≤ v) : pagesIn v stop = [] :=
  if_neg (Nat.not_lt_of_le h)

/-- What a header must be like for its segment to be loaded. -/
structure ProgramHeader.Loadable (program : Program) (ph : ProgramHeader) : Prop where
  file : ph.offset + ph.filesz ≤ program.len
  room : ph.filesz ≤ ph.memsz
  below : ph.vaddr + ph.memsz ≤ 0xFFFF800000000000
  low : 0 < ph.memsz → ph.vaddr + ph.memsz ≤ 2 ^ 47
  readable : 0 < ph.memsz → ph.flags &&& pfR ≠ 0

/-! ## The account -/

/-- The pages are distinct, and there are frames for them and their tables. -/
def Affords (funds own : Nat) (pages : List Nat) : Prop :=
  pages.Nodup ∧ own + tableCount pages ≤ funds

theorem Affords.of_more {funds own own' : Nat} {pages more : List Nat}
    (h : Affords funds own' (pages ++ more)) (hle : own ≤ own') : Affords funds own pages := by
  refine ⟨h.1.of_append_left, le_trans ?_ h.2⟩
  exact Nat.add_le_add hle (tableCount_mono (List.subset_append_left pages more))

/-- **The tables can grow**: they are a tree of kernel frames without huge pages, the ones below the
root known by the keys `T`; every frame of the retype table has its place in the direct map, and the
cursor is in the table. -/
structure Growable (env : Env) (root : Nat) (T : Finset (List (Fin 512))) (a : BumpAllocator)
    (m : Machine) : Prop where
  rooted : Rooted lowHalf root m
  noHuge : NoHuge lowHalf root m.mem
  tables : Tables lowHalf root m.mem T
  covered : ¬ Uncovered env m
  cursor : a.index ≤ m.retypeMap.length

/-- **The state of a load**: `own` frames given out and the tables for `pages` made, out of `funds`
frames; all that was free before the cursor is taken. -/
structure Accounted (env : Env) (root funds own : Nat) (pages : List Nat) (a : BumpAllocator)
    (m : Machine) : Prop where
  rooted : Rooted lowHalf root m
  noHuge : NoHuge lowHalf root m.mem
  low : ∀ n ∈ pages, n < 2 ^ 35
  tables : Tables lowHalf root m.mem (pathsOf pages)
  mapped : ∀ page : Page, lowHalf (page.key 4) →
    (trailOf m.mem root page.keys ≠ none ↔ page.number ∈ pages)
  nodup : pages.Nodup
  covered : ¬ Uncovered env m
  cursor : a.index ≤ m.retypeMap.length
  behind : ∀ n < a.index, m.typing n ≠ some (.untyped, 0)
  clean : ∀ n c, m.typing n = some (.untyped, c) → c = 0
  spent : (m.freeFrom 0).card + own + tableCount pages = funds

section Account

variable {env : Env} {root funds own : Nat} {pages : List Nat} {a : BumpAllocator} {m m' : Machine}
  {f : RawFrame}

theorem Accounted.affords (h : Accounted env root funds own pages a m) : Affords funds own pages :=
  ⟨h.nodup, by have := h.spent; omega⟩

theorem Accounted.growable (h : Accounted env root funds own pages a m) :
    Growable env root (pathsOf pages) a m :=
  ⟨h.rooted, h.noHuge, h.tables, h.covered, h.cursor⟩

theorem freeFrom_zero (h : ∀ n < a.index, m.typing n ≠ some (.untyped, 0)) :
    m.freeFrom a.index = m.freeFrom 0 := by
  ext n
  rw [Machine.mem_freeFrom, Machine.mem_freeFrom]
  refine ⟨fun hn => ⟨Nat.zero_le n, hn.2⟩, fun hn => ⟨?_, hn.2⟩⟩
  by_contra hlt
  exact h n (Nat.lt_of_not_le hlt) hn.2

theorem BumpAllocator.Claimed.freeFrom_user (hc : Claimed .user m f m') (index : Nat) :
    m'.freeFrom index = (m.freeFrom index).erase f.number := by
  ext n
  rw [Finset.mem_erase, Machine.mem_freeFrom, Machine.mem_freeFrom]
  by_cases hn : n = f.number
  · subst hn
    simp [hc.typing_self]
  · simp [hc.typing_ne hn, hn]

/-- The table is as long as it has frames. -/
theorem length_eq_of_typed (h : ∀ n, m'.typing n = none ↔ m.typing n = none) :
    m'.retypeMap.length = m.retypeMap.length := by
  have hlen : ∀ m : Machine, ∀ n, m.typing n = none ↔ m.retypeMap.length ≤ n := by
    intro m n
    simp [Machine.typing]
  refine le_antisymm ?_ ?_
  · rw [← hlen, h, hlen]
  · rw [← hlen, ← h, hlen]

theorem Uncovered.congr (hlen : m'.retypeMap.length = m.retypeMap.length) :
    Uncovered env m' ↔ Uncovered env m := by
  unfold Uncovered
  rw [hlen]

section Claim

variable {T : Finset (List (Fin 512))}

theorem Growable.searchable (h : Growable env root T a m) : Searchable a m :=
  searchable_of_covered h.covered h.cursor

/-- The search for a frame: none from the cursor on is free, or the first of them is taken. -/
theorem Growable.claim (h : Growable env root T a m) :
    wp (a.allocUserFrame env)
      (fun r m' => (r.1 = none ∧ m' = m ∧ m.freeFrom a.index = ∅) ∨ ∃ u, r.1 = some u ∧
        Claimed .user m u.frame m' ∧ Growable env root T r.2 m' ∧ r.2.index = u.frame.number ∧
        a.index ≤ u.frame.number ∧
        ∀ n, a.index ≤ n → n < u.frame.number → m.typing n ≠ some (.untyped, 0))
      (fun _ _ => False) m := by
  refine wp_mono (BumpAllocator.alloc_answers env BumpAllocator.decides_user
    h.searchable.addressable a h.cursor) ?_ fun _ _ hfalse => hfalse
  rintro ⟨r, b⟩ m' hr
  cases r with
  | none =>
    obtain ⟨rfl, _, hnone⟩ := hr
    refine .inl ⟨rfl, rfl, Finset.eq_empty_of_forall_notMem fun n hn => ?_⟩
    rw [Machine.mem_freeFrom] at hn
    exact hnone n _ hn.1 hn.2 rfl
  | some u =>
    obtain ⟨hfirst, hcursor, hc⟩ := hr
    have hc : Claimed .user m u.frame m' := hc
    have hcursor : b.index = u.frame.number := hcursor
    have hlen : m'.retypeMap.length = m.retypeMap.length := by
      obtain ⟨e, e', _, _, _, rfl⟩ := hc.entries
      exact List.length_set
    refine .inr ⟨u, rfl, hc, ⟨?_, ?_, ?_, ?_, ?_⟩, hcursor, hfirst.le, fun n hge hlt hu =>
      hfirst.least n _ hge hlt hu rfl⟩
    · refine h.rooted.congr (fun x ks _ => by rw [hc.mem_eq]) fun n c hn => hc.typing_ne ?_
      rintro rfl
      rw [hc.was_untyped] at hn
      cases hn
    · rw [hc.mem_eq]
      exact h.noHuge
    · rw [hc.mem_eq]
      exact h.tables
    · rw [Uncovered.congr hlen]
      exact h.covered
    · show b.index ≤ m'.retypeMap.length
      rw [hcursor, hlen]
      exact (Machine.lt_length_of_typing hc.was_untyped).le

end Claim

/-- **A frame of its own.** -/
theorem Accounted.claim (h : Accounted env root funds own pages a m) :
    wp (a.allocUserFrame env)
      (fun r m' => (r.1 = none ∧ funds = own + tableCount pages) ∨ ∃ u, r.1 = some u ∧
        Claimed .user m u.frame m' ∧ Accounted env root funds (own + 1) pages r.2 m')
      (fun _ _ => False) m := by
  have hspent := h.spent
  refine wp_mono h.growable.claim ?_ fun _ _ hfalse => hfalse
  rintro ⟨r, b⟩ m' (⟨hnone, _, hempty⟩ | ⟨u, hsome, hc, hg, hcursor, _, hleast⟩)
  · rw [freeFrom_zero h.behind] at hempty
    rw [hempty, Finset.card_empty] at hspent
    exact .inl ⟨hnone, by omega⟩
  · have hfree := hc.was_untyped
    have hmem := Machine.mem_freeFrom.mpr ⟨Nat.zero_le u.frame.number, hfree⟩
    have hcard := Finset.card_erase_add_one hmem
    have hcursor : b.index = u.frame.number := hcursor
    refine .inr ⟨u, hsome, hc, hg.rooted, hg.noHuge, h.low, hg.tables, ?_, h.nodup, hg.covered,
      hg.cursor, fun n hn => ?_, fun n c hn => ?_, ?_⟩
    · rw [hc.mem_eq]
      exact h.mapped
    · have hn : n < u.frame.number := hcursor ▸ hn
      rw [hc.typing_ne (Nat.ne_of_lt hn)]
      by_cases hlt : n < a.index
      · exact h.behind n hlt
      · exact hleast n (Nat.le_of_not_lt hlt) hn
    · by_cases hself : n = u.frame.number
      · rw [hself, hc.typing_self] at hn
        cases hn
      · exact h.clean n c ((hc.typing_ne hself).symm.trans hn)
    · rw [hc.freeFrom_user]
      omega

theorem Page.number_lt {page : Page} (hlow : lowHalf (page.key 4)) : page.number < 2 ^ 35 := by
  have haddr := page.index_four_lt_iff.mp hlow
  unfold Page.number
  simp only [pageSize]
  omega

theorem Page.ext_number {p q : Page} (h : p.number = q.number) : p = q :=
  Page.ext_keys (by rw [Page.keys_eq, Page.keys_eq, h])

section Map

variable {page : Page} {frame : RawFrame} {flags parent : PageTableFlags} {b : BumpAllocator}

/-- What is mapped once the page is. -/
theorem Accounted.mapped_install (h : Accounted env root funds own pages a m)
    (hi : Installed lowHalf root page frame flags parent (m.noted (.mapTo page)) m') (q : Page)
    (hq : lowHalf (q.key 4)) :
    trailOf m'.mem root q.keys ≠ none ↔ q.number ∈ pages ++ [page.number] := by
  rw [List.mem_append, List.mem_singleton]
  by_cases hqp : q = page
  · subst hqp
    obtain ⟨ps, _, _, htr⟩ := hi.installed
    rw [htr]
    exact ⟨fun _ => .inr rfl, fun _ => Option.some_ne_none _⟩
  · rw [hi.others q.keys q.length_keys hq fun hkeys => hqp (Page.ext_keys hkeys)]
    exact (h.mapped q hq).trans ⟨.inl, fun hmem => hmem.resolve_right fun hnum =>
      hqp (Page.ext_number hnum)⟩

/-- The page is on the books once its tables are paid for. -/
theorem Accounted.install (h : Accounted env root funds own pages a m) (hlow : lowHalf (page.key 4))
    (hparent : parent.contains .hugePage = false)
    (hi : Installed lowHalf root page frame flags parent (m.noted (.mapTo page)) m')
    (htables : Tables lowHalf root m'.mem (pathsOf (pages ++ [page.number])))
    (hlength : m'.retypeMap.length = m.retypeMap.length) (hcursor : b.index ≤ m'.retypeMap.length)
    (hskipped : m'.freeFrom b.index = m'.freeFrom a.index)
    (hcount : (m.freeFrom a.index).card + tableCount pages =
      (m'.freeFrom b.index).card + tableCount (pages ++ [page.number])) :
    Accounted env root funds own (pages ++ [page.number]) b m' := by
  have hspent := h.spent
  have hbehind : ∀ n < b.index, m'.typing n ≠ some (.untyped, 0) := by
    intro n hn hu
    by_cases hlt : n < a.index
    · refine h.behind n hlt ?_
      rcases hi.retyped n with heq | ⟨hold, _⟩
      · exact heq ▸ hu
      · exact hold
    · have hmem := Machine.mem_freeFrom.mpr ⟨Nat.le_of_not_lt hlt, hu⟩
      rw [← hskipped, Machine.mem_freeFrom] at hmem
      exact absurd hmem.1 (Nat.not_le_of_lt hn)
  rw [freeFrom_zero h.behind, freeFrom_zero hbehind] at hcount
  refine ⟨hi.rooted, ?_, ?_, htables, h.mapped_install hi, ?_, ?_, hcursor, hbehind, ?_, by omega⟩
  · intro ks n k e hl
    rcases hi.links ks n k e hl with hold | ⟨hnew, _⟩
    · exact h.noHuge ks n k e hold
    · rw [hnew, PageTableFlags.contains_union_present parent rfl]
      exact hparent
  · intro n hn
    rcases List.mem_append.mp hn with hn | hn
    · exact h.low n hn
    · rw [List.mem_singleton.mp hn]
      exact Page.number_lt hlow
  · refine List.nodup_append.mpr ⟨h.nodup, List.nodup_singleton _, fun n hn k hk => ?_⟩
    rw [List.mem_singleton.mp hk]
    rintro rfl
    exact (h.mapped page hlow).mpr hn hi.vacant
  · rw [Uncovered.congr hlength]
    exact h.covered
  · intro n c hn
    rcases hi.retyped n with heq | ⟨_, hkernel, _⟩
    · exact h.clean n c (heq.symm.trans hn)
    · rw [hkernel] at hn
      cases hn

/-- **A page and its tables.** -/
theorem Accounted.map (h : Accounted env root funds own pages a m) (hlow : lowHalf (page.key 4))
    (hframe : frame.Aligned) (hflags : flags.bits ≠ 0)
    (hparent : parent.contains .hugePage = false) :
    wp (mapTo env page frame flags parent (root * frameSize) a)
      (fun r m' => (r.1 = .ok () ∧
          (∀ n c, m.typing n = some (.user, c) → m'.typing n = some (.user, c)) ∧
          Accounted env root funds own (pages ++ [page.number]) r.2 m') ∨
        ((∃ e, r.1 = .error e) ∧ ¬ Affords funds own (pages ++ [page.number])))
      (fun _ _ => False) m := by
  have hspent := h.spent
  have hfree := freeFrom_zero h.behind
  have hpaths := pathsOf_concat pages page
  have hcard := card_pathsOf fun n hn => (h.low n hn).trans (by decide)
  have hcard' : (pathsOf (pages ++ [page.number])).card = tableCount (pages ++ [page.number]) := by
    refine card_pathsOf fun n hn => ?_
    rcases List.mem_append.mp hn with hn | hn
    · exact (h.low n hn).trans (by decide)
    · rw [List.mem_singleton.mp hn]
      exact (Page.number_lt hlow).trans (by decide)
  refine wp_mono (wp_and (wp_mapTo hframe (Or.inr hflags) hlow h.rooted a)
    (wp_mapTo_charged h.rooted hlow h.noHuge hparent hframe (Or.inr hflags) h.covered
      h.growable.searchable h.tables)) ?_ fun _ _ hpanic => hpanic.2
  rintro r m' ⟨hend, hcharged⟩
  cases hcharged with
  | paid htables hsearch hlength hskipped hcount =>
    have hi : Installed lowHalf root page frame flags parent (m.noted (.mapTo page)) m' := hend
    rw [← hpaths] at htables hcount
    rw [hcard, hcard'] at hcount
    refine .inl ⟨rfl, fun n c hn => ?_,
      h.install hlow hparent hi htables hlength hsearch.cursor hskipped hcount⟩
    rcases hi.retyped n with heq | ⟨hu, _⟩
    · exact heq.trans hn
    · rw [Machine.noted_typing, hn] at hu
      cases hu
  | short hshort =>
    refine .inr ⟨⟨_, rfl⟩, fun hafford => ?_⟩
    have hle := hafford.2
    rw [← hpaths, hfree, hcard, hcard'] at hshort
    omega
  | occupied hmapped =>
    refine .inr ⟨⟨_, rfl⟩, fun hafford => ?_⟩
    have hmem := (h.mapped page hlow).mp hmapped
    exact (List.nodup_append.mp hafford.1).2.2 _ hmem _ (List.mem_singleton_self _) rfl

end Map

/-- **The contents of a frame of its own.** -/
theorem Accounted.write {c : Nat} (h : Accounted env root funds own pages a m)
    (hw : FrameWrite f m m')
    (hf : m.typing f.number = some (.user, c)) : Accounted env root funds own pages a m' := by
  have htables := hw.tables h.rooted hf
  have hlen : m'.retypeMap.length = m.retypeMap.length :=
    length_eq_of_typed fun n => by rw [hw.typing n]
  refine ⟨?_, ?_, h.low, ?_, ?_, h.nodup, ?_, ?_, ?_, ?_, ?_⟩
  · refine h.rooted.congr (fun x ks hn => ?_) fun n c _ => hw.typing n
    exact hw.mem x (h.rooted.ne_of_typing hn hf (by decide))
  · intro ks n k e hl
    exact h.noHuge ks n k e ((Radix.link_congr htables).mp hl)
  · intro ks
    rw [h.tables ks]
    exact and_congr_right fun _ => exists_congr fun n => (Radix.node_congr htables).symm
  · intro q hq
    rw [← h.mapped q hq]
    unfold trailOf
    rw [Radix.trail_congr htables (Nat.le_of_eq q.length_keys) hq]
  · rw [Uncovered.congr hlen]
    exact h.covered
  · rw [hlen]
    exact h.cursor
  · intro n hn
    rw [hw.typing]
    exact h.behind n hn
  · intro n c
    rw [hw.typing]
    exact h.clean n c
  · have hsame : m'.freeFrom 0 = m.freeFrom 0 := by
      ext n
      rw [Machine.mem_freeFrom, Machine.mem_freeFrom, hw.typing]
    rw [hsame]
    exact h.spent

end Account

/-! ## The segments -/

section Segments

variable {env : Env} {program : Program} {ph : ProgramHeader} {root funds own : Nat}
  {pages : List Nat} {a : BumpAllocator} {m : Machine} {fileEnd vmEnd : Nat}

/-- A copy from inside the image does not fault. -/
theorem copyFrom_of_le {start count : Nat} (h : start + count ≤ program.len) :
    ∃ bytes, program.copyFrom start count = .ok bytes := by
  unfold Program.copyFrom
  rw [if_pos]
  · exact ⟨_, rfl⟩
  · refine List.all_eq_true.mpr fun i hi => ?_
    unfold Program.read
    rw [if_pos (by have := List.mem_range.mp hi; omega)]
    rfl

theorem fillPage_of_le {page vcurrent fcurrent count : Nat} (h : fcurrent + count ≤ program.len) :
    ∃ m', fillPage program page vcurrent fcurrent count m = .ok () m' := by
  unfold fillPage
  by_cases hpos : 0 < count
  · obtain ⟨bytes, hbytes⟩ := copyFrom_of_le h
    rw [if_pos hpos, hbytes]
    exact ⟨_, rfl⟩
  · rw [if_neg hpos]
    exact ⟨_, rfl⟩

/-- **One page of a segment**: its frame, its tables and its bytes. -/
theorem Accounted.wp_segmentPage (h : Accounted env root funds own pages a m) {v fcurrent : Nat}
    (hv : v < 0xFFFF800000000000) (hf : fcurrent ≤ fileEnd) (hfile : fileEnd ≤ program.len)
    (hlen : program.len < 2 ^ 64) :
    wp (segmentPage env (root * frameSize) program ph fileEnd v fcurrent a)
      (fun r m' => (v < 2 ^ 47 ∧ ph.flags &&& pfR ≠ 0) ∧ r.1 = v + (pageSize - v % pageSize) ∧
        r.2.1 ≤ fileEnd ∧ Accounted env root funds (own + 1) (pages ++ [v / pageSize]) r.2.2 m')
      (fun _ _ => ¬ ((v < 2 ^ 47 ∧ ph.flags &&& pfR ≠ 0) ∧
        Affords funds (own + 1) (pages ++ [v / pageSize]))) m := by
  unfold segmentPage
  refine wp_seq h.claim ?_ fun _ _ hfalse => hfalse.elim
  rintro ⟨r, b⟩ m₁ (⟨hnone, hfunds⟩ | ⟨u, hsome, hc, h₁⟩)
  · obtain rfl : r = none := hnone
    simp only [unwrap, wp_bind, wp_throw]
    rintro ⟨_, hafford⟩
    have hle := (hafford.of_more le_rfl).2
    omega
  · obtain rfl : r = some u := hsome
    simp only [unwrap, pure_bind, wp_bind]
    refine wp_orPanic (fun addr haddr => ?_) fun p hp => ?_
    swap
    · rintro ⟨⟨hlt, _⟩, _⟩
      rw [VirtAddr.new_of_canonical (canonical_iff.mpr (.inl hlt))] at hp
      cases hp
    have haddr := VirtAddr.new_eq_ok haddr
    have hcanon := canonical_iff.mp addr.canonical
    refine wp_orPanic (fun page hpage => ?_) fun p hp => ?_
    swap
    · rw [Page.containingAddress_of] at hp
      cases hp
    have hbase := Page.containingAddress_eq_ok hpage
    rw [haddr] at hcanon hbase
    have hnumber : page.number = v / pageSize := by
      unfold Page.number
      rw [hbase]
      exact Nat.mul_div_cancel _ (by decide)
    refine wp_assert_cases (fun hR => ?_) fun hR p => ?_
    swap
    · exact fun hall => hall.1.2 (by simpa using hR)
    have hread : ph.flags &&& pfR ≠ 0 := by simpa using hR
    have hlow : lowHalf (page.key 4) := lowHalf_of_lt (by
      rw [hbase]
      exact Nat.lt_of_le_of_lt (Nat.div_mul_le_self _ _) hv)
    refine wp_mono (h₁.map hlow hc.aligned (segmentFlags_ne ph) (by decide)) ?_ fun _ _ h => h.elim
    rw [hnumber]
    rintro ⟨r, b₂⟩ m₂ (⟨hok, huser, h₂⟩ | ⟨⟨e, herr⟩, hnot⟩)
    · obtain rfl : r = .ok () := hok
      simp only [unwrapOk, wp_pure]
      have htyped := huser _ _ hc.typing_self
      refine wp_orPanic (fun ptr hptr => ?_) fun p hp => ?_
      swap
      · exact absurd ⟨_, Machine.lt_length_of_typing htyped, RawFrame.unmapped_of_ptr hc.aligned hp⟩
          h₂.covered
      obtain rfl := RawFrame.ptr_eq_ok hptr
      rw [Env.sub_of_le env hf]
      show wp (fillPage program u.frame.base.addr v fcurrent
        (min (fileEnd - fcurrent) (pageSize - v % pageSize))) _ _ m₂
      generalize hcount : min (fileEnd - fcurrent) (pageSize - v % pageSize) = count
      have hmod := Nat.mod_lt v (show 0 < pageSize by decide)
      obtain ⟨m₃, hfill⟩ :
          ∃ m', fillPage program u.frame.base.addr v fcurrent count m₂ = .ok () m' :=
        fillPage_of_le (by omega)
      have hw := (wp_ok (wp_fillPage hc.aligned (by omega)) hfill).1
      have hnext : v + (pageSize - v % pageSize) < 2 ^ 64 := by
        simp only [pageSize]
        omega
      rw [wp_of_eq_ok hfill, Env.add_of_lt env hnext,
        Env.add_of_lt env (by omega : fcurrent + count < 2 ^ 64)]
      exact ⟨⟨by omega, hread⟩, rfl, by show fcurrent + count ≤ fileEnd; omega, h₂.write hw htyped⟩
    · obtain rfl : r = .error e := herr
      exact fun hall => hnot hall.2

/-- **The segment loop.** Induction on the bound; each turn takes the first of the pages left. -/
theorem Accounted.wp_segmentLoop (hvm : vmEnd ≤ 0xFFFF800000000000) (hfile : fileEnd ≤ program.len)
    (hlen : program.len < 2 ^ 64) (bound : Nat) :
    ∀ (v fcurrent own : Nat) (pages : List Nat) (a : BumpAllocator) (m : Machine),
      Accounted env root funds own pages a m → fcurrent ≤ fileEnd → vmEnd ≤ v + bound →
      wp (segmentLoop env (root * frameSize) program ph vmEnd fileEnd bound v fcurrent a)
        (fun b m' => (v < vmEnd → vmEnd ≤ 2 ^ 47 ∧ ph.flags &&& pfR ≠ 0) ∧
          Accounted env root funds (own + (pagesIn v vmEnd).length) (pages ++ pagesIn v vmEnd) b m')
        (fun _ _ => ¬ ((v < vmEnd → vmEnd ≤ 2 ^ 47 ∧ ph.flags &&& pfR ≠ 0) ∧
          Affords funds (own + (pagesIn v vmEnd).length) (pages ++ pagesIn v vmEnd))) m := by
  have hdone : ∀ (v own : Nat) (pages : List Nat) (a : BumpAllocator) (m : Machine), vmEnd ≤ v →
      Accounted env root funds own pages a m →
      (v < vmEnd → vmEnd ≤ 2 ^ 47 ∧ ph.flags &&& pfR ≠ 0) ∧
        Accounted env root funds (own + (pagesIn v vmEnd).length)
          (pages ++ pagesIn v vmEnd) a m := by
    intro v own pages a m hle h
    rw [pagesIn_of_le hle, List.append_nil]
    exact ⟨fun hlt => absurd hlt (Nat.not_lt_of_le hle), h⟩
  induction bound with
  | zero =>
    intro v fcurrent own pages a m h _ hbound
    exact hdone v own pages a m hbound h
  | succ bound ih =>
    intro v fcurrent own pages a m h hf hbound
    unfold segmentLoop
    rw [wp_ite]
    refine ⟨fun hlt => ?_, fun hge => hdone v own pages a m (by omega) h⟩
    have hpages := pagesIn_of_lt hlt
    have hnext : v < v + (pageSize - v % pageSize) ∧
        (v < 2 ^ 47 → v + (pageSize - v % pageSize) ≤ 2 ^ 47) := by
      simp only [pageSize]
      omega
    have happend : pages ++ pagesIn v vmEnd = pages ++ [v / pageSize] ++
        pagesIn (v + (pageSize - v % pageSize)) vmEnd := by
      rw [hpages, List.append_assoc]
      rfl
    have hcount : own + (pagesIn v vmEnd).length =
        own + 1 + (pagesIn (v + (pageSize - v % pageSize)) vmEnd).length := by
      rw [hpages, List.length_cons]
      omega
    rw [happend, hcount]
    refine wp_seq (h.wp_segmentPage (by omega) hf hfile hlen) ?_ ?_
    · rintro ⟨vnext, fnext, b⟩ m' ⟨⟨hlow, hread⟩, hvnext, hfnext, h'⟩
      obtain rfl : vnext = v + (pageSize - v % pageSize) := hvnext
      refine wp_mono (ih _ fnext (own + 1) _ b m' h' hfnext (by omega)) ?_ ?_
      · rintro b' m'' ⟨hpass, h''⟩
        refine ⟨fun _ => ⟨?_, hread⟩, h''⟩
        by_cases hmore : v + (pageSize - v % pageSize) < vmEnd
        · exact (hpass hmore).1
        · exact (Nat.le_of_not_lt hmore).trans (hnext.2 hlow)
      · rintro _ _ hnot ⟨hpass, hafford⟩
        exact hnot ⟨fun _ => hpass hlt, hafford⟩
    · rintro _ _ hnot ⟨hpass, hafford⟩
      obtain ⟨hvm47, hread⟩ := hpass hlt
      exact hnot ⟨⟨by omega, hread⟩, hafford.of_more (by omega)⟩

/-- Where the profile checks a sum, or it does not wrap, it is the sum or a panic. -/
theorem Env.add_fit (env : Env) {x y : Nat} (hfit : env.overflowChecks = true ∨ x + y < 2 ^ 64) :
    env.add x y = .ok (x + y) ∨ (2 ^ 64 ≤ x + y ∧ ∃ p, env.add x y = .error p) := by
  by_cases hlt : x + y < 2 ^ 64
  · exact .inl (Env.add_of_lt env hlt)
  · have hchecks := hfit.resolve_right hlt
    cases hadd : env.add x y with
    | ok z => exact absurd (Env.add_checked hchecks hadd).1 hlt
    | error p => exact .inr ⟨Nat.le_of_not_lt hlt, p, rfl⟩

/-- **One segment.** -/
theorem Accounted.wp_segmentLoad (h : Accounted env root funds own pages a m)
    (hfit : env.overflowChecks = true ∨ ph.Fits) (hlen : program.len < 2 ^ 64) :
    wp (segmentLoad env (root * frameSize) program ph a)
      (fun b m' => ph.Loadable program ∧
        Accounted env root funds (own + ph.pages.length) (pages ++ ph.pages) b m')
      (fun _ _ =>
        ¬ (ph.Loadable program ∧ Affords funds (own + ph.pages.length) (pages ++ ph.pages)))
      m := by
  unfold segmentLoad
  simp only [wp_bind]
  rcases Env.add_fit env (hfit.imp_right And.left) with hvm | ⟨hover, p, hvm⟩
  swap
  · rw [hvm]
    exact fun hall => by have := hall.1.below; omega
  rcases Env.add_fit env (hfit.imp_right And.right) with hfile | ⟨hover, p, hfile⟩
  swap
  · rw [hvm, hfile]
    exact fun hall => by have := hall.1.file; omega
  rw [hvm, hfile]
  refine wp_assert_cases (fun hbelow => ?_) fun hbelow p hall => ?_
  swap
  · exact absurd hall.1.below (by simpa using hbelow)
  refine wp_assert_cases (fun hinside => ?_) fun hinside p hall => ?_
  swap
  · exact absurd hall.1.file (by simpa using hinside)
  refine wp_assert_cases (fun hroom => ?_) fun hroom p hall => ?_
  swap
  · exact absurd hall.1.room (by simpa using hroom)
  have hbelow : ph.vaddr + ph.memsz ≤ 0xFFFF800000000000 := of_decide_eq_true hbelow
  have hinside : ph.offset + ph.filesz ≤ program.len := of_decide_eq_true hinside
  have hroom : ph.filesz ≤ ph.memsz := of_decide_eq_true hroom
  refine wp_mono (Accounted.wp_segmentLoop hbelow hinside hlen _ ph.vaddr ph.offset own pages a m h
    (Nat.le_add_right _ _) (by omega)) ?_ ?_
  · rintro b m' ⟨hpass, h'⟩
    exact ⟨⟨hinside, hroom, hbelow, fun hpos => (hpass (by omega)).1,
      fun hpos => (hpass (by omega)).2⟩,
      h'⟩
  · rintro _ _ hnot ⟨hloadable, hafford⟩
    exact hnot ⟨fun hlt => ⟨hloadable.low (by omega), hloadable.readable (by omega)⟩, hafford⟩

/-- The pages of the loadable headers. -/
def segmentPages (phdrs : List ProgramHeader) : List Nat :=
  (phdrs.filter (·.type = ptLoad)).flatMap ProgramHeader.pages

theorem segmentPages_append (xs ys : List ProgramHeader) :
    segmentPages (xs ++ ys) = segmentPages xs ++ segmentPages ys := by
  unfold segmentPages
  rw [List.filter_append, List.flatMap_append]

theorem segmentPages_load (hload : ph.type = ptLoad) : segmentPages [ph] = ph.pages := by
  simp [segmentPages, hload]

theorem segmentPages_skip (hload : ph.type ≠ ptLoad) : segmentPages [ph] = [] := by
  simp [segmentPages, hload]

/-- **All segments.** -/
theorem Accounted.wp_loadSegments (h : Accounted env root funds own pages a m)
    (phdrs : List ProgramHeader)
    (hfit : env.overflowChecks = true ∨ ∀ ph ∈ phdrs, ph.type = ptLoad → ph.Fits)
    (hlen : program.len < 2 ^ 64) :
    wp (phdrs.foldlM (loadSegment env program (root * frameSize)) a)
      (fun b m' => (∀ ph ∈ phdrs, ph.type = ptLoad → ph.Loadable program) ∧
        Accounted env root funds (own + (segmentPages phdrs).length)
          (pages ++ segmentPages phdrs) b m')
      (fun _ _ => ¬ ((∀ ph ∈ phdrs, ph.type = ptLoad → ph.Loadable program) ∧
        Affords funds (own + (segmentPages phdrs).length) (pages ++ segmentPages phdrs))) m := by
  have hnil : Accounted env root funds (own + (segmentPages []).length)
    (pages ++ segmentPages []) a m := by
    rw [show segmentPages [] = [] from rfl, List.append_nil]
    exact h
  refine wp_foldlM (fun done b m' => (∀ ph ∈ done, ph.type = ptLoad → ph.Loadable program) ∧
    Accounted env root funds (own + (segmentPages done).length)
      (pages ++ segmentPages done) b m') _ phdrs
    ?_ ⟨fun _ hph => absurd hph List.not_mem_nil, hnil⟩
  rintro done ph rest b m' rfl ⟨hdone, h'⟩
  rw [List.append_cons done ph rest, segmentPages_append _ rest, segmentPages_append done [ph]]
  have hmem : ph ∈ done ++ [ph] ++ rest :=
    List.mem_append_left _ (List.mem_append_right _ (List.mem_singleton_self ph))
  unfold loadSegment
  by_cases hload : ph.type = ptLoad
  · rw [if_pos hload, segmentPages_load hload]
    rw [List.append_cons done ph rest] at hfit
    refine wp_mono (h'.wp_segmentLoad (hfit.imp_right fun hfits => hfits ph hmem hload) hlen) ?_ ?_
    · rintro b' m'' ⟨hloadable, h''⟩
      refine ⟨fun q hq hq' => ?_, ?_⟩
      · rcases List.mem_append.mp hq with hq | hq
        · exact hdone q hq hq'
        · rw [List.mem_singleton.mp hq]
          exact hloadable
      · rwa [List.length_append, ← Nat.add_assoc, ← List.append_assoc]
    · rintro _ _ hnot ⟨hall, hafford⟩
      refine hnot ⟨hall ph hmem hload, ?_⟩
      rw [← List.append_assoc, ← List.append_assoc] at hafford
      refine hafford.of_more ?_
      rw [List.length_append, List.length_append]
      omega
  · rw [if_neg hload, segmentPages_skip hload, List.append_nil]
    refine ⟨fun q hq hq' => ?_, h'⟩
    rcases List.mem_append.mp hq with hq | hq
    · exact hdone q hq hq'
    · exact absurd (List.mem_singleton.mp hq ▸ hq') hload

end Segments

/-! ## The stack and the window -/

section Pages

variable {env : Env} {args : LoadArgs} {root funds own : Nat} {pages : List Nat} {a : BumpAllocator}
  {m : Machine}

/-- The stack pages, counted down from the window. -/
def LoadArgs.stack (args : LoadArgs) (count : Nat) : List Nat :=
  (List.range count).map fun i => args.untypedMemoryOffset / pageSize - (i + 1)

/-- The pages of the window. -/
def LoadArgs.window (args : LoadArgs) (count : Nat) : List Nat :=
  List.range' (args.untypedMemoryOffset / pageSize) count

theorem LoadArgs.stack_succ (i : Nat) :
    args.stack (i + 1) = args.stack i ++ [args.untypedMemoryOffset / pageSize - (i + 1)] := by
  unfold LoadArgs.stack
  rw [List.range_succ, List.map_append]
  rfl

theorem LoadArgs.window_succ (i : Nat) :
    args.window (i + 1) = args.window i ++ [args.untypedMemoryOffset / pageSize + i] := by
  unfold LoadArgs.window
  rw [List.range'_concat, Nat.one_mul]

theorem LoadArgs.stack_split (args : LoadArgs) {i n : Nat} (h : i ≤ n) :
    ∃ rest, args.stack n = args.stack i ++ rest := by
  obtain ⟨d, rfl⟩ := Nat.exists_eq_add_of_le h
  unfold LoadArgs.stack
  rw [List.range_add, List.map_append]
  exact ⟨_, rfl⟩

theorem LoadArgs.window_split (args : LoadArgs) {i n : Nat} (h : i ≤ n) :
    ∃ rest, args.window n = args.window i ++ rest := by
  obtain ⟨d, rfl⟩ := Nat.exists_eq_add_of_le h
  unfold LoadArgs.window
  rw [← List.range'_append_1]
  exact ⟨_, rfl⟩

/-- **One stack page.** -/
theorem Accounted.wp_stackPage (h : Accounted env root funds own pages a m) (hfit : args.Fit env)
    (haligned : args.untypedMemoryOffset % pageSize = 0)
    (hoff : args.untypedMemoryOffset < 0xFFFF800000000000) {i : Nat} (hi : i < args.stackPages) :
    wp (stackPage env args (root * frameSize) a i)
      (fun b m' => (pageSize * (i + 1) ≤ args.untypedMemoryOffset ∧
          args.untypedMemoryOffset < 2 ^ 47 + pageSize * (i + 1)) ∧
        Accounted env root funds (own + 1)
          (pages ++ [args.untypedMemoryOffset / pageSize - (i + 1)]) b m')
      (fun _ _ => ¬ ((pageSize * (i + 1) ≤ args.untypedMemoryOffset ∧
          args.untypedMemoryOffset < 2 ^ 47 + pageSize * (i + 1)) ∧
        Affords funds (own + 1) (pages ++ [args.untypedMemoryOffset / pageSize - (i + 1)]))) m := by
  unfold stackPage
  refine wp_seq h.claim ?_ fun _ _ hfalse => hfalse.elim
  rintro ⟨r, b⟩ m₁ (⟨hnone, hfunds⟩ | ⟨u, hsome, hc, h₁⟩)
  · obtain rfl : r = none := hnone
    simp only [unwrap, wp_bind, wp_throw]
    rintro ⟨_, hafford⟩
    have hle := (hafford.of_more le_rfl).2
    omega
  · obtain rfl : r = some u := hsome
    simp only [unwrap, pure_bind, wp_bind]
    by_cases hroom : pageSize * (i + 1) ≤ args.untypedMemoryOffset
    swap
    · -- without room for the page, the address does not come out
      refine wp_orPanic (fun next hnext => ?_) fun _ _ hall => hroom hall.1.1
      refine wp_orPanic (fun depth hdepth => ?_) fun _ _ hall => hroom hall.1.1
      refine wp_orPanic (fun addr haddr => ?_) fun _ _ hall => hroom hall.1.1
      have hsum := stack_addr hfit hi hnext hdepth haddr
      omega
    have hsmall : i + 1 < 2 ^ 64 := by
      simp only [pageSize] at hroom
      omega
    simp only [Env.add_of_lt env hsmall,
      Env.mul_of_lt env (show pageSize * (i + 1) < 2 ^ 64 by omega),
      Env.sub_of_le env hroom, wp_orPanic_ok]
    refine wp_orPanic (fun v hv => ?_) fun p hp hall => ?_
    swap
    · rw [VirtAddr.new_of_canonical (canonical_iff.mpr (.inl (by omega)))] at hp
      cases hp
    have hv := VirtAddr.new_eq_ok hv
    have hcanon := canonical_iff.mp v.canonical
    have hpage : v.addr % pageSize = 0 := by
      rw [hv]
      simp only [pageSize] at *
      omega
    rw [Page.fromStartAddress_of hpage, wp_orPanic_ok]
    have hnumber : Page.number ⟨v, hpage⟩ = args.untypedMemoryOffset / pageSize - (i + 1) := by
      show v.addr / pageSize = _
      rw [hv]
      simp only [pageSize] at *
      omega
    have hlow : lowHalf (Page.key ⟨v, hpage⟩ 4) := lowHalf_of_lt (by
      show v.addr < _
      omega)
    refine wp_mono (h₁.map hlow hc.aligned (by decide) (by decide)) ?_ fun _ _ hfalse => hfalse.elim
    rw [hnumber]
    rintro ⟨r, b₂⟩ m₂ (⟨hok, _, h₂⟩ | ⟨⟨e, herr⟩, hnot⟩)
    · obtain rfl : r = .ok () := hok
      exact ⟨⟨hroom, by omega⟩, h₂⟩
    · obtain rfl : r = .error e := herr
      exact fun hall => hnot hall.2

/-- **The stack.** -/
theorem Accounted.wp_loadStack (h : Accounted env root funds own pages a m) (hfit : args.Fit env)
    (haligned : args.untypedMemoryOffset % pageSize = 0)
    (hoff : args.untypedMemoryOffset < 0xFFFF800000000000) :
    wp ((List.range args.stackPages).foldlM (stackPage env args (root * frameSize)) a)
      (fun b m' => (pageSize * args.stackPages ≤ args.untypedMemoryOffset ∧
          (0 < args.stackPages → args.untypedMemoryOffset ≤ 2 ^ 47)) ∧
        Accounted env root funds (own + args.stackPages) (pages ++ args.stack args.stackPages) b m')
      (fun _ _ => ¬ ((pageSize * args.stackPages ≤ args.untypedMemoryOffset ∧
          (0 < args.stackPages → args.untypedMemoryOffset ≤ 2 ^ 47)) ∧
        Affords funds (own + args.stackPages) (pages ++ args.stack args.stackPages))) m := by
  refine wp_foldlM_range (fun i b m' => (pageSize * i ≤ args.untypedMemoryOffset ∧
      (0 < i → args.untypedMemoryOffset ≤ 2 ^ 47)) ∧
    Accounted env root funds (own + i) (pages ++ args.stack i) b m') _ _ ?_ ?_
  · rintro i b m' hi ⟨⟨_, hlow⟩, h'⟩
    refine wp_mono (h'.wp_stackPage hfit haligned hoff hi) ?_ ?_
    · rintro b' m'' ⟨⟨hroom, hturn⟩, h''⟩
      refine ⟨⟨hroom, fun _ => ?_⟩, ?_⟩
      · rcases Nat.eq_zero_or_pos i with rfl | hpos
        · simp only [pageSize] at *
          omega
        · exact hlow hpos
      · rwa [LoadArgs.stack_succ, ← List.append_assoc]
    · rintro _ _ hnot ⟨⟨hroom, hlow'⟩, hafford⟩
      obtain ⟨rest, hrest⟩ := LoadArgs.stack_split args (Nat.succ_le_of_lt hi)
      rw [hrest, LoadArgs.stack_succ, ← List.append_assoc, ← List.append_assoc] at hafford
      refine hnot ⟨⟨?_, ?_⟩, hafford.of_more (by omega)⟩
      · exact (Nat.mul_le_mul_left _ (Nat.succ_le_of_lt hi)).trans hroom
      · have hpos : 0 < pageSize * (i + 1) := Nat.mul_pos (by decide) (Nat.succ_pos i)
        exact Nat.lt_of_le_of_lt (hlow' (by omega)) (Nat.lt_add_of_pos_right hpos)
  · refine ⟨⟨Nat.zero_le _, fun hpos => absurd hpos (Nat.lt_irrefl 0)⟩, ?_⟩
    rw [show args.stack 0 = [] from rfl, List.append_nil]
    exact h

/-- **One page of the window.** -/
theorem Accounted.wp_windowPage (h : Accounted env root funds own pages a m)
    (haligned : args.untypedMemoryOffset % pageSize = 0)
    (hwin : args.untypedMemoryOffset + args.untypedMemoryLength < 0xFFFF800000000000) {i : Nat}
    (hi : i < args.untypedMemoryLength / pageSize) :
    wp (windowPage env args (root * frameSize) a i)
      (fun b m' => args.untypedMemoryOffset + pageSize * i < 2 ^ 47 ∧
        Accounted env root funds own (pages ++ [args.untypedMemoryOffset / pageSize + i]) b m')
      (fun _ _ => ¬ (args.untypedMemoryOffset + pageSize * i < 2 ^ 47 ∧
        Affords funds own (pages ++ [args.untypedMemoryOffset / pageSize + i]))) m := by
  have hbound : i * frameSize + args.untypedMemoryOffset < 0xFFFF800000000000 := by
    simp only [pageSize, frameSize] at *
    omega
  have hsum : i * frameSize + args.untypedMemoryOffset =
    args.untypedMemoryOffset + pageSize * i := by
    simp only [pageSize, frameSize]
    omega
  unfold windowPage
  simp only [wp_bind, Env.mul_of_lt env (show i * frameSize < 2 ^ 64 by omega), wp_orPanic_ok]
  by_cases hlow : args.untypedMemoryOffset + pageSize * i < 2 ^ 47
  swap
  · -- the address of the page is not canonical
    refine wp_orPanic (fun base hbase => ?_) fun _ _ hall => hlow hall.1
    refine wp_orPanic (fun frame hframe => ?_) fun _ _ hall => hlow hall.1
    have hstart : frame.base.addr = i * frameSize := by
      rw [(RawFrame.fromStartAddress_eq_ok hframe).1, PhysAddr.new_eq_ok hbase]
    rw [hstart, Env.add_of_lt env (by omega), wp_orPanic_ok]
    refine wp_orPanic (fun v hv => ?_) fun _ _ hall => hlow hall.1
    have hcanon := canonical_iff.mp v.canonical
    rw [VirtAddr.new_eq_ok hv] at hcanon
    omega
  have hphys : i * frameSize < 2 ^ 52 := by omega
  have hframe : i * frameSize % frameSize = 0 := Nat.mul_mod_left _ _
  have hcanon :=
    canonical_iff.mpr (.inl (by omega : i * frameSize + args.untypedMemoryOffset < 2 ^ 47))
  have hpage : (i * frameSize + args.untypedMemoryOffset) % pageSize = 0 :=
    (Nat.mul_add_mod_self_right i frameSize args.untypedMemoryOffset).trans haligned
  rw [PhysAddr.new_of_lt hphys, wp_orPanic_ok, RawFrame.fromStartAddress_of_aligned hframe,
    wp_orPanic_ok, Env.add_of_lt env (by show i * frameSize + _ < _; omega), wp_orPanic_ok,
    VirtAddr.new_of_canonical hcanon, wp_orPanic_ok, Page.fromStartAddress_of hpage, wp_orPanic_ok]
  have hnumber : Page.number ⟨⟨i * frameSize + args.untypedMemoryOffset, hcanon⟩, hpage⟩ =
      args.untypedMemoryOffset / pageSize + i := by
    show (i * pageSize + args.untypedMemoryOffset) / pageSize = _
    rw [Nat.add_comm, Nat.add_mul_div_right _ _ (by decide)]
  have hlowHalf :
    lowHalf (Page.key ⟨⟨i * frameSize + args.untypedMemoryOffset, hcanon⟩, hpage⟩ 4) :=
    lowHalf_of_lt hbound
  refine wp_mono (h.map hlowHalf hframe (by decide) (by decide)) ?_ fun _ _ hfalse => hfalse.elim
  rw [hnumber]
  rintro ⟨r, b⟩ m' (⟨hok, _, h'⟩ | ⟨⟨e, herr⟩, hnot⟩)
  · obtain rfl : r = .ok () := hok
    exact ⟨hlow, h'⟩
  · obtain rfl : r = .error e := herr
    exact fun hall => hnot hall.2

theorem succ_page_le {x : Nat} (hx : x % pageSize = 0) (hlt : x < 2 ^ 47) :
    x + pageSize ≤ 2 ^ 47 := by
  simp only [pageSize] at *
  omega

/-- **The window.** -/
theorem Accounted.wp_loadWindow (h : Accounted env root funds own pages a m)
    (haligned : args.untypedMemoryOffset % pageSize = 0)
    (hwin : args.untypedMemoryOffset + args.untypedMemoryLength < 0xFFFF800000000000) :
    wp ((List.range (args.untypedMemoryLength / pageSize)).foldlM
        (windowPage env args (root * frameSize)) a)
      (fun b m' => (0 < args.untypedMemoryLength / pageSize → args.untypedMemoryOffset +
          pageSize * (args.untypedMemoryLength / pageSize) ≤ 2 ^ 47) ∧
        Accounted env root funds own
          (pages ++ args.window (args.untypedMemoryLength / pageSize)) b m')
      (fun _ _ => ¬ ((0 < args.untypedMemoryLength / pageSize → args.untypedMemoryOffset +
          pageSize * (args.untypedMemoryLength / pageSize) ≤ 2 ^ 47) ∧
        Affords funds own (pages ++ args.window (args.untypedMemoryLength / pageSize)))) m := by
  refine wp_foldlM_range (fun i b m' => (0 < i → args.untypedMemoryOffset + pageSize * i ≤ 2 ^ 47) ∧
    Accounted env root funds own (pages ++ args.window i) b m') _ _ ?_ ?_
  · rintro i b m' hi ⟨_, h'⟩
    refine wp_mono (h'.wp_windowPage haligned hwin hi) ?_ ?_
    · rintro b' m'' ⟨hturn, h''⟩
      refine ⟨fun _ => ?_, ?_⟩
      · rw [Nat.mul_succ, ← Nat.add_assoc]
        refine succ_page_le ?_ hturn
        rw [Nat.add_mul_mod_self_left]
        exact haligned
      · rwa [LoadArgs.window_succ, ← List.append_assoc]
    · rintro _ _ hnot ⟨hlow, hafford⟩
      obtain ⟨rest, hrest⟩ := LoadArgs.window_split args (Nat.succ_le_of_lt hi)
      rw [hrest, LoadArgs.window_succ, ← List.append_assoc, ← List.append_assoc] at hafford
      refine hnot ⟨?_, hafford.of_more le_rfl⟩
      refine Nat.lt_of_lt_of_le ?_ (hlow (Nat.zero_lt_of_lt hi))
      exact Nat.add_lt_add_left (Nat.mul_lt_mul_of_pos_left hi (by decide)) _
  · refine ⟨fun hpos => absurd hpos (Nat.lt_irrefl 0), ?_⟩
    rw [show args.window 0 = [] from rfl, List.append_nil]
    exact h

end Pages

/-! ## All of it -/

section Place

variable {env : Env} {program : Program} {args : LoadArgs} {phdrs : List ProgramHeader}
  {root funds : Nat} {a : BumpAllocator} {m : Machine}

/-- The pages with a frame of their own. -/
def ownPages (args : LoadArgs) (phdrs : List ProgramHeader) : List Nat :=
  segmentPages phdrs ++ args.stack args.stackPages

/-- All pages of the process. -/
def allPages (args : LoadArgs) (phdrs : List ProgramHeader) : List Nat :=
  ownPages args phdrs ++ args.window (args.untypedMemoryLength / pageSize)

/-- The segments can be loaded, and the stack and the window lie in the lower half. -/
structure Placeable (program : Program) (args : LoadArgs) (phdrs : List ProgramHeader) : Prop where
  segments : ∀ ph ∈ phdrs, ph.type = ptLoad → ph.Loadable program
  stackRoom : pageSize * args.stackPages ≤ args.untypedMemoryOffset
  stackLow : 0 < args.stackPages → args.untypedMemoryOffset ≤ 2 ^ 47
  windowLow : 0 < args.untypedMemoryLength / pageSize → args.untypedMemoryOffset +
    pageSize * (args.untypedMemoryLength / pageSize) ≤ 2 ^ 47

/-- **All pages**: placed, or too many. -/
theorem Accounted.wp_place (h : Accounted env root funds 0 [] a m) (hfit : args.Fit env)
    (hfits : env.overflowChecks = true ∨ ∀ ph ∈ phdrs, ph.type = ptLoad → ph.Fits)
    (hlen : program.len < 2 ^ 64) (haligned : args.untypedMemoryOffset % pageSize = 0)
    (hwin : args.untypedMemoryOffset + args.untypedMemoryLength < 0xFFFF800000000000) :
    wp (place env program args phdrs (root * frameSize) a)
      (fun _ m' => Placeable program args phdrs ∧ ∃ b,
        Accounted env root funds (ownPages args phdrs).length (allPages args phdrs) b m')
      (fun _ _ => ¬ (Placeable program args phdrs ∧
        Affords funds (ownPages args phdrs).length (allPages args phdrs))) m := by
  have hown : (ownPages args phdrs).length = 0 + (segmentPages phdrs).length + args.stackPages := by
    unfold ownPages LoadArgs.stack
    rw [List.length_append, List.length_map, List.length_range, Nat.zero_add]
  rw [hown]
  unfold allPages ownPages place
  refine wp_seq (h.wp_loadSegments phdrs hfits hlen) ?_ ?_
  · rintro b m₁ ⟨hsegments, h₁⟩
    refine wp_seq (h₁.wp_loadStack hfit haligned (by omega)) ?_ ?_
    · rintro b₂ m₂ ⟨⟨hroom, hlow⟩, h₂⟩
      refine wp_seq (h₂.wp_loadWindow haligned hwin) ?_ ?_
      · rintro b₃ m₃ ⟨hwindow, h₃⟩
        exact ⟨⟨hsegments, hroom, hlow, hwindow⟩, b₃, h₃⟩
      · rintro _ _ hnot ⟨hplace, hafford⟩
        exact hnot ⟨hplace.windowLow, hafford⟩
    · rintro _ _ hnot ⟨hplace, hafford⟩
      exact hnot ⟨⟨hplace.stackRoom, hplace.stackLow⟩, hafford.of_more le_rfl⟩
  · rintro _ _ hnot ⟨hplace, hafford⟩
    rw [List.append_assoc] at hafford
    exact hnot ⟨hplace.segments, hafford.of_more (Nat.le_add_right _ _)⟩

end Place

end Harmony
