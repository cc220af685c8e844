import Harmony.Boot.Isolation
import Harmony.Caps.Traffic
import Harmony.Paging.Hardware

/-!
# What a loaded process reaches

`Process::load` sets up tables, and the processor goes by them. The loader gives no table the flag
`HUGE_PAGE`, so the processor walks down the tree the loader built: it grants the program exactly
what the program headers ask for, the stack without execution, and nothing of the window.

* `Machine.Enclosed`: user code on an L4 table reads its tables in kernel frames and reaches `User`
  frames only. Writes outside kernel frames, and retyping of untyped frames, keep it
  (`Machine.Enclosed.congr`).
* `Loaded.mmuWalk_eq`: an access to a placed page.
* `load_granted`: what the processor grants a loaded program, at every address.
-/

namespace Harmony

open Lib

/-! ## Enclosed address spaces -/

/-- User code on the L4 table in frame `root` reads its tables in kernel frames, and what it reaches
are `User` frames. -/
structure Machine.Enclosed (m : Machine) (root : RawFrame) : Prop where
  aligned : root.Aligned
  within : Mmu.Within m.mem root.base.addr (fun n => m.stateOf n = some .kernel)
    (fun n => m.stateOf n = some .user)

section Enclosed

variable {m m' : Machine} {root : RawFrame}

/-- Writes outside kernel frames, and retyping of untyped frames, do not matter. -/
theorem Machine.Enclosed.congr (h : m.Enclosed root)
    (hmem : ∀ x, m.stateOf (x / frameSize) = some .kernel → m'.mem x = m.mem x)
    (hkernel : ∀ n, m.stateOf n = some .kernel → m'.stateOf n = some .kernel)
    (huser : ∀ n, m.stateOf n = some .user → m'.stateOf n = some .user) : m'.Enclosed root :=
  ⟨h.aligned, (h.within.congr h.aligned hmem).mono hkernel huser⟩

/-- A table with nothing in its lower half, and nothing or the entries of an enclosed one in its
upper half. -/
theorem Machine.Enclosed.of_table {new : RawFrame} (h : m.Enclosed root) (hnew : new.Aligned)
    (hkernel : m.stateOf new.number = some .kernel)
    (hwords : ∀ i < 512, load64 m.mem (new.base.addr + 8 * i) = 0 ∨
      load64 m.mem (new.base.addr + 8 * i) = load64 m.mem (root.base.addr + 8 * i)) :
    m.Enclosed new := by
  refine ⟨hnew, h.within.of_entries hkernel fun v => ?_⟩
  rcases hwords _ (Mmu.index_lt v 4) with h0 | hsame
  · left
    unfold Mmu.entry
    rw [h0]
    rfl
  · exact .inr hsame

end Enclosed

/-! ## No table is taken for a huge page -/

section Small

variable {env : Env} {goblin : Goblin} {program : Program} {args : LoadArgs}
  {phdrs : List ProgramHeader} {root : Nat} {m m' m₀ : Machine} {placed : List Placement}
  {page : Page} {frame : RawFrame} {flags parent : PageTableFlags}

theorem OwnTables.noHuge (h : OwnTables root m) : NoHuge lowHalf root m.mem := by
  intro ks n k e hl
  rw [h ks n k e hl]
  decide

/-- The tables a call of `map_to` makes have its parent flags. -/
theorem NoHuge.installed (h : NoHuge lowHalf root m.mem)
    (hparent : parent.contains .hugePage = false)
    (hi : Installed lowHalf root page frame flags parent (m.noted (.mapTo page)) m') :
    NoHuge lowHalf root m'.mem := by
  intro ks n k e hl
  rcases hi.links ks n k e hl with hold | ⟨hflags, _⟩
  · exact h ks n k e hold
  · rw [hflags, PageTableFlags.contains_union_present _ (by decide)]
    exact hparent

theorem wp_windowSmall
    (hwin : args.untypedMemoryOffset + args.untypedMemoryLength < 0xFFFF800000000000)
    (h : Placing root m₀ placed m) (hno : NoHuge lowHalf root m.mem) {i : Nat}
    (hi : i < args.untypedMemoryLength / pageSize) (a : BumpAllocator) :
    wp (windowPage env args (root * frameSize) a i) (fun _ m' => NoHuge lowHalf root m'.mem)
      (fun _ _ => True) m := by
  unfold windowPage
  simp only [wp_bind]
  refine wp_orPanic (fun start hstart => ?_) (fun _ _ => trivial)
  refine wp_orPanic (fun base hbase => ?_) (fun _ _ => trivial)
  refine wp_orPanic (fun frame hframe => ?_) (fun _ _ => trivial)
  refine wp_orPanic (fun addr haddr => ?_) (fun _ _ => trivial)
  refine wp_orPanic (fun v hv => ?_) (fun _ _ => trivial)
  refine wp_orPanic (fun page hpage => ?_) (fun _ _ => trivial)
  obtain ⟨hfb, hal⟩ := RawFrame.fromStartAddress_eq_ok hframe
  have hle : i * frameSize + args.untypedMemoryOffset < 0xFFFF800000000000 := by
    simp only [pageSize, frameSize] at *
    omega
  have hlow : lowHalf (page.key 4) := by
    refine lowHalf_of_lt ?_
    rw [Env.mul_of_lt env (by omega)] at hstart
    rw [hfb, PhysAddr.new_eq_ok hbase, ← Except.ok.inj hstart,
      Env.add_of_lt env (by omega)] at haddr
    rw [Page.fromStartAddress_eq_ok hpage, VirtAddr.new_eq_ok hv, ← Except.ok.inj haddr]
    exact hle
  refine wp_mono (wp_mapTo hal (Or.inr (by decide)) hlow h.rooted a) ?_ (fun _ _ _ => trivial)
  rintro ⟨r, a'⟩ m' hr
  cases r with
  | error e => trivial
  | ok u => exact hno.installed (by decide) hr

/-- **The three loops** make no table with `HUGE_PAGE`. -/
theorem wp_placeSmall (hfit : args.Fit env)
    (hwin : args.untypedMemoryOffset + args.untypedMemoryLength < 0xFFFF800000000000)
    (h : Placing root m₀ [] m) (hown : OwnTables root m) (a : BumpAllocator) :
    wp (place env program args phdrs (root * frameSize) a)
      (fun _ m' => NoHuge lowHalf root m'.mem) (fun _ _ => True) m := by
  unfold place
  refine wp_seq (E := fun _ m' => Untouched root m₀ m') (wp_foldlM (fun _ _ m' => ∃ placed,
    Placing root m₀ placed m' ∧ OwnTables root m') _ phdrs ?_ ⟨[], h, hown⟩) ?_
    (fun _ _ _ => trivial)
  · rintro done ph rest a m₁ _ ⟨placed, h₁, hown₁⟩
    unfold loadSegment
    rw [wp_ite]
    refine ⟨fun _ => ?_, fun _ => ⟨placed, h₁, hown₁⟩⟩
    refine wp_mono (wp_segmentLoad h₁ hown₁ a) ?_ (fun _ _ hu => hu)
    rintro _ m₂ ⟨ps, _, h₂, hown₂⟩
    exact ⟨placed ++ ps, h₂, hown₂⟩
  rintro a₁ m₁ ⟨placed₁, h₁, hown₁⟩
  refine wp_seq (E := fun _ m' => Untouched root m₀ m') (wp_foldlM_range (fun _ _ m' => ∃ placed,
    Placing root m₀ placed m' ∧ OwnTables root m') _ args.stackPages ?_ ⟨placed₁, h₁, hown₁⟩) ?_
    (fun _ _ _ => trivial)
  · rintro i a m₂ hi ⟨placed, h₂, hown₂⟩
    refine wp_mono (wp_stackPage hfit (by omega) h₂ hown₂ hi a) ?_ (fun _ _ hu => hu)
    rintro _ m₃ ⟨p, _, h₃, hown₃⟩
    exact ⟨placed ++ [p], h₃, hown₃⟩
  -- the window's tables are not the process's own, but no huge pages either
  rintro a₂ m₂ ⟨placed₂, h₂, hown₂⟩
  refine wp_seq (E := fun _ _ => True) (wp_foldlM_range (fun _ _ m' =>
    (∃ placed, Placing root m₀ placed m') ∧ NoHuge lowHalf root m'.mem) _
    (args.untypedMemoryLength / pageSize) ?_ ⟨⟨placed₂, h₂⟩, hown₂.noHuge⟩) (fun _ _ hm => hm.2)
    (fun _ _ _ => trivial)
  rintro i a m₃ hi ⟨⟨placed, h₃⟩, hno⟩
  refine wp_mono (wp_and (wp_windowPage hwin h₃ hi a) (wp_windowSmall hwin h₃ hno hi a)) ?_
    (fun _ _ _ => trivial)
  rintro _ m₄ ⟨⟨p, _, h₄⟩, hno₄⟩
  exact ⟨⟨placed ++ [p], h₄⟩, hno₄⟩

theorem wp_loadSmall (hfit : args.Fit env) :
    wp (Process.load env goblin program args)
      (fun proc m' => ∃ l4, proc.l4Table.Points env l4 ∧ NoHuge lowHalf l4.number m'.mem)
      (fun _ _ => True) m := by
  unfold Process.load
  refine wp_seq wp_setup ?_ (fun _ _ _ => trivial)
  rintro ⟨p, a⟩ m₀ ⟨hwin, l4, hp, hnew⟩
  have hmap : directMap env p.inner = .ok l4.base.addr := KPtr.directMap_of_points hp
  simp only [hmap, orPanic, wp_bind, wp_pure]
  refine wp_mono (Q := fun _ m₁ => m₁ = m₀) (E := fun _ _ => True) ?_ ?_ (fun _ _ _ => trivial)
  · unfold readHeaders
    simp only [wp_bind]
    refine wp_assert (fun _ => ?_) (fun _ => trivial)
    refine wp_orPanic (fun phEnd _ => ?_) (fun _ _ => trivial)
    refine wp_assert (fun _ => ?_) (fun _ => trivial)
    refine wp_assert (fun _ => ?_) (fun _ => trivial)
    cases goblin.programHeaders program (goblin.header program.bytes).phoff
        (goblin.header program.bytes).phnum with
    | none => trivial
    | some phdrs => rfl
  · rintro ⟨header, phdrs⟩ _ rfl
    rw [hnew.aligned.base_eq]
    refine wp_mono (wp_placeSmall hfit (hwin.lt hfit) hnew.placing hnew.ownTables a) ?_
      (fun _ _ _ => trivial)
    exact fun _ m' hno => ⟨l4, hp, hno⟩

end Small

/-! ## What the processor grants -/

section Granted

variable {env : Env} {goblin : Goblin} {program : Program} {args : LoadArgs} {m m' m₀ : Machine}
  {proc : Process} {l4 : RawFrame} {phdrs : List ProgramHeader} {placed : List Placement}
  {p : Placement} {a : Mmu.Access} {v : VirtAddr}

theorem Loaded.noHuge (h : Loaded env goblin program args m proc m' l4 m₀ phdrs placed)
    (hfit : args.Fit env) (hok : Process.load env goblin program args m = .ok proc m') :
    NoHuge lowHalf l4.number m'.mem := by
  obtain ⟨l4', hp', hno⟩ := wp_ok (wp_loadSmall hfit) hok
  have hbase : l4'.base.addr = l4.base.addr := by
    have hp := h.points
    unfold KPtr.Points at hp hp'
    omega
  have hnumber : l4'.number = l4.number := by
    unfold RawFrame.number
    rw [hbase]
  rwa [hnumber] at hno

namespace Loaded

/-- The tables of the process let every access through. -/
theorem parentEntry_permits (a : Mmu.Access) : parentEntry.permits a = true := by
  cases a <;> decide

/-- **An access to a placed page**: its own entry decides. -/
theorem mmuWalk_placed (h : Loaded env goblin program args m proc m' l4 m₀ phdrs placed)
    (hno : NoHuge lowHalf l4.number m'.mem) (hp : p ∈ placed) (hpage : p.page = v.page) :
    Mmu.walk m'.mem a v.addr l4.base.addr =
      if p.flags.permits a then some (p.frame.base.addr + v.addr % pageSize) else none := by
  have hold := h.placing.holds p hp
  obtain ⟨ps, hw, _, hps⟩ := h.walk_eq hp
  rw [hpage] at hw
  have hlow : lowHalf (v.page.key 4) := hpage ▸ hold.low
  rw [mmuWalk_eq h.space.aligned hlow hno, hw, Option.bind_some]
  unfold granted
  rw [Radix.endOf_concat, List.all_append]
  have hall : (ps.all fun e => e.2.permits a) = true ∨ p.flags.permits a = false := by
    rcases h.laid.sound p hp with ⟨ph, _, _, _, _, hseg⟩ | ⟨i, _, hst⟩ | ⟨i, _, hwin⟩
    · obtain ⟨bytes, hdata, _⟩ := hseg.content
      refine .inl (List.all_eq_true.mpr fun e he => ?_)
      rw [hps (by rw [hdata]; rfl) e he]
      exact parentEntry_permits a
    · refine .inl (List.all_eq_true.mpr fun e he => ?_)
      rw [hps (by rw [hst.content]; rfl) e he]
      exact parentEntry_permits a
    · right
      rw [hwin.flags]
      cases a <;> decide
  simp only [List.all_cons, List.all_nil, Bool.and_true, target]
  rw [hold.aligned.base_eq]
  rcases hall with hps | hleaf
  · rw [hps, Bool.true_and]
  · rw [hleaf, Bool.and_false]

/-- The upper half is closed to user code. -/
theorem permits_upper (h : Loaded env goblin program args m proc m' l4 m₀ phdrs placed)
    (hboot : BootKernelOnly m) (hup : ¬ lowHalf (v.page.key 4)) :
    Mmu.permits a (Mmu.entry m'.mem v.addr 4 l4.base.addr) = false := by
  have hdecode := decode_mmuEntry m'.mem v 3 l4.number
  rw [← h.space.aligned.base_eq] at hdecode
  have hupper : upperHalf (v.page.key 4) := Nat.le_of_not_lt hup
  rw [h.space.upper_entry h.placing.toUntouched hupper] at hdecode
  cases he : entryOf m.mem m.cr3.number (v.page.key 4) with
  | none => exact permits_of_empty a (hdecode.trans he)
  | some e =>
    rw [permits_of_decode (hdecode.trans he)]
    unfold PageTableFlags.permits
    rw [hboot _ hupper e he, Bool.and_false, Bool.false_and]

/-- **What the processor lets through is a placed page.** -/
theorem placed_of_mmuWalk (h : Loaded env goblin program args m proc m' l4 m₀ phdrs placed)
    (hno : NoHuge lowHalf l4.number m'.mem) (hboot : BootKernelOnly m) {x : Nat}
    (hx : Mmu.walk m'.mem a v.addr l4.base.addr = some x) :
    ∃ p ∈ placed, p.page = v.page ∧ p.flags.permits a = true ∧
      x = p.frame.base.addr + v.addr % pageSize := by
  by_cases hlow : lowHalf (v.page.key 4)
  · have hwalk := hx
    rw [mmuWalk_eq h.space.aligned hlow hno] at hwalk
    obtain ⟨es, hes, _⟩ := Option.bind_eq_some_iff.mp hwalk
    rw [walk_eq_trail _ h.space.aligned] at hes
    obtain ⟨p, hp, hpage⟩ := h.placing.complete v.page hlow (by rw [hes]; simp)
    rw [h.mmuWalk_placed hno hp hpage] at hx
    cases hpermits : p.flags.permits a with
    | false =>
      rw [hpermits] at hx
      cases hx
    | true =>
      rw [hpermits] at hx
      exact ⟨p, hp, hpage, hpermits, (Option.some.inj hx).symm⟩
  · unfold Mmu.walk at hx
    rw [if_pos (mmu_canonical v), Mmu.walkFrom_of_closed (h.permits_upper hboot hlow)] at hx
    cases hx

/-- A page that is open to user code is the process's own. -/
theorem owned_of_permits (h : Loaded env goblin program args m proc m' l4 m₀ phdrs placed)
    (hp : p ∈ placed) (hpermits : p.flags.permits a = true) : p.content.owned = true := by
  rcases h.laid.sound p hp with ⟨ph, _, _, _, _, hseg⟩ | ⟨i, _, hst⟩ | ⟨i, _, hwin⟩
  · obtain ⟨bytes, hdata, _⟩ := hseg.content
    rw [hdata]
    rfl
  · rw [hst.content]
    rfl
  · rw [hwin.flags] at hpermits
    cases a <;> exact absurd hpermits (by decide)

/-- **User code on the new table is enclosed.** -/
theorem enclosed (h : Loaded env goblin program args m proc m' l4 m₀ phdrs placed)
    (hno : NoHuge lowHalf l4.number m'.mem) (hboot : BootKernelOnly m) : m'.Enclosed l4 := by
  have htable : ∀ ks n, TableAt lowHalf l4.number m'.mem ks n → m'.stateOf n = some .kernel := by
    intro ks n hn
    obtain ⟨c, hc, _⟩ := h.placing.rooted.typed ks n hn
    unfold Machine.stateOf
    rw [hc]
    rfl
  refine ⟨h.space.aligned, fun a v t ht => ?_, fun a v x hx => ?_⟩
  · unfold Mmu.visited at ht
    split_ifs at ht with hv
    swap
    · exact absurd ht List.not_mem_nil
    obtain ⟨u, rfl⟩ : ∃ u : VirtAddr, u.addr = v := ⟨⟨v, canonical_of_mmu hv⟩, rfl⟩
    by_cases hlow : lowHalf (u.page.key 4)
    · rw [h.space.aligned.base_eq] at ht
      obtain ⟨ks, n, hn, rfl⟩ := visited_tables hlow a OnTree.start t ht
      have hdiv : n * frameSize / 4096 = n := Nat.mul_div_cancel n (by decide)
      rw [hdiv]
      exact htable ks n hn
    · rw [Mmu.visitedFrom_of_closed (h.permits_upper hboot hlow)] at ht
      obtain rfl := List.mem_singleton.mp ht
      exact htable [] _ (Radix.node_root (by decide))
  · have hv : Mmu.canonical v = true := by
      unfold Mmu.walk at hx
      split_ifs at hx with hv
      exact hv
    obtain ⟨u, rfl⟩ : ∃ u : VirtAddr, u.addr = v := ⟨⟨v, canonical_of_mmu hv⟩, rfl⟩
    obtain ⟨p, hp, _, hpermits, rfl⟩ := h.placed_of_mmuWalk hno hboot hx
    have hold := h.placing.holds p hp
    have hty := (hold.typed (h.owned_of_permits hp hpermits)).2
    have hdiv : (p.frame.base.addr + u.addr % pageSize) / 4096 = p.frame.number :=
      div_frameSize hold.aligned (Nat.mod_lt _ (by decide))
    rw [hdiv]
    unfold Machine.stateOf
    rw [hty]
    rfl

end Loaded

/-- What the headers and the arguments ask for at an address. -/
inductive Asked (args : LoadArgs) (phdrs : List ProgramHeader) (a : Mmu.Access) (v : Nat) : Prop
  /-- The address is on a page of a segment, with the segment's rights. -/
  | segment {ph : ProgramHeader} {w : Nat} (hph : ph ∈ phdrs) (hload : ph.type = ptLoad)
      (hge : ph.vaddr ≤ w) (hlt : w < ph.vaddr + ph.memsz) (hpage : w / pageSize = v / pageSize)
      (hright : a.allowed (ph.flags &&& pfW != 0) (ph.flags &&& pfX == 0) = true)
  /-- The address is on a page of the stack, which is not executed. -/
  | stack {i : Nat} (hi : i < args.stackPages)
      (hpage : v / pageSize * pageSize + pageSize * (i + 1) = args.untypedMemoryOffset)
      (hright : a ≠ .fetch)

theorem segmentFlags_permits (ph : ProgramHeader) (a : Mmu.Access) :
    (segmentFlags ph).permits a = a.allowed (ph.flags &&& pfW != 0) (ph.flags &&& pfX == 0) := by
  have hw : (segmentFlags ph).contains .writable = (ph.flags &&& pfW != 0) := by
    rw [Bool.eq_iff_iff, segmentFlags_writable]
    simp
  have hx : (segmentFlags ph).contains .noExecute = (ph.flags &&& pfX == 0) := by
    rw [Bool.eq_iff_iff, ← Bool.not_eq_false, segmentFlags_noExecute]
    simp
  unfold PageTableFlags.permits
  rw [segmentFlags_present, segmentFlags_user, hw, hx, Bool.true_and, Bool.true_and]

theorem stackFlags_permits (a : Mmu.Access) : stackFlags.permits a = true ↔ a ≠ .fetch := by
  cases a <;> decide

/-- The processor grants what was asked for, at a placed page. -/
theorem Loaded.asked_iff (h : Loaded env goblin program args m proc m' l4 m₀ phdrs placed)
    (hno : NoHuge lowHalf l4.number m'.mem) (hboot : BootKernelOnly m)
    (hfits : ∀ ph ∈ phdrs, ph.type = ptLoad → ph.Fits) (a : Mmu.Access) (v : VirtAddr) :
    Mmu.walk m'.mem a v.addr l4.base.addr ≠ none ↔ Asked args phdrs a v.addr := by
  have hgrant : ∀ p ∈ placed, p.page = v.page → p.flags.permits a = true →
      Mmu.walk m'.mem a v.addr l4.base.addr ≠ none := by
    intro p hp hpage hpermits
    rw [h.mmuWalk_placed hno hp hpage, if_pos hpermits]
    simp
  constructor
  · intro hsome
    obtain ⟨x, hx⟩ := Option.ne_none_iff_exists'.mp hsome
    obtain ⟨p, hp, hpage, hpermits, _⟩ := h.placed_of_mmuWalk hno hboot hx
    have hbase : p.page.base.addr = v.addr / pageSize * pageSize := by
      rw [hpage]
      rfl
    rcases h.laid.sound p hp with ⟨ph, hph, hload, vmEnd, hvm, hseg⟩ | ⟨i, hi, hst⟩ | ⟨i, _, hwin⟩
    · rw [Env.add_of_lt env (hfits ph hph hload).1] at hvm
      obtain rfl := Except.ok.inj hvm
      obtain ⟨w, hge, hlt, hw⟩ := hseg.address
      rw [hseg.flags, segmentFlags_permits] at hpermits
      refine .segment hph hload hge hlt ?_ hpermits
      rw [hbase] at hw
      exact (Nat.eq_of_mul_eq_mul_right (by decide) hw).symm
    · rw [hst.flags, stackFlags_permits] at hpermits
      refine .stack hi ?_ hpermits
      rw [← hbase]
      exact hst.page
    · have howned := h.owned_of_permits hp hpermits
      rw [hwin.content] at howned
      cases howned
  · rintro (⟨hph, hload, hge, hlt, hpage, hright⟩ | ⟨hi, hpage, hright⟩)
    · rename_i ph w
      obtain ⟨p, hp, hseg, hbase⟩ := h.segment hph hload (hfits ph hph hload) hge hlt
      refine hgrant p hp (Page.ext_base ?_) ?_
      · rw [hbase, hpage]
        rfl
      · rw [hseg.flags, segmentFlags_permits]
        exact hright
    · rename_i i
      obtain ⟨p, hp, hst⟩ := h.laid.stack i hi
      refine hgrant p hp (Page.ext_base ?_) ?_
      · have hbase := hst.page
        show p.page.base.addr = v.addr / pageSize * pageSize
        omega
      · rw [hst.flags, stackFlags_permits]
        exact hright

/-- **What the processor grants a loaded program**: at every address exactly what the program
headers and the stack ask for, out of `User` frames, and where a segment is read its bytes. -/
theorem load_granted (hfit : args.Fit env) (hheaders : phdrsOf goblin program = some phdrs)
    (hfits : ∀ ph ∈ phdrs, ph.type = ptLoad → ph.Fits) (hboot : BootKernelOnly m)
    (hok : Process.load env goblin program args m = .ok proc m') :
    ∃ l4, proc.l4Table.Points env l4 ∧ m'.Enclosed l4 ∧
      (∀ (a : Mmu.Access) (v : VirtAddr),
        Mmu.walk m'.mem a v.addr l4.base.addr ≠ none ↔ Asked args phdrs a v.addr) ∧
      ∀ ph ∈ phdrs, ph.type = ptLoad → ∀ w, ph.vaddr ≤ w → w < ph.vaddr + ph.memsz →
        ∀ v, v / pageSize = w / pageSize → ∃ x,
          Mmu.walk m'.mem .read v l4.base.addr = some x ∧ m'.mem x = segmentByte program ph v := by
  obtain ⟨l4, m₀, phdrs', placed, h⟩ := wp_ok (wp_load hfit) hok
  obtain rfl := Option.some.inj (h.headers.symm.trans hheaders)
  have hno := h.noHuge hfit hok
  refine ⟨l4, h.points, h.enclosed hno hboot, h.asked_iff hno hboot hfits, ?_⟩
  intro ph hph hload w hge hlt v hv
  obtain ⟨u, rfl, hbyte⟩ := (h.image hfits).bytes ph hph hload w hge hlt v hv
  obtain ⟨p, hp, hseg, hbase⟩ := h.segment hph hload (hfits ph hph hload) hge hlt
  have hpage : p.page = u.page := Page.ext_base (by rw [hbase, ← hv]; rfl)
  have hread : p.flags.permits .read = true := by
    rw [hseg.flags, segmentFlags_permits]
    rfl
  refine ⟨_, (h.mmuWalk_placed hno hp hpage).trans (if_pos hread), ?_⟩
  unfold byteAt at hbyte
  rw [← hpage, h.translate_eq hp] at hbyte
  exact Option.some.inj hbyte

end Granted

theorem load_granted_booted : ∃ proc m' l4,
    Process.load Env.dev (.always [smallSegment]) smallProgram (.boot 0x1b000) bootedSpace =
      .ok proc m' ∧ m'.Enclosed l4 ∧ Mmu.walk m'.mem .fetch 0x1002 l4.base.addr ≠ none ∧
      Mmu.walk m'.mem .write 0x1002 l4.base.addr = none := by
  obtain ⟨proc, m', hok⟩ := load_booted
  obtain ⟨l4, _, henclosed, hasked, _⟩ := load_granted (LoadArgs.boot_fit _ (by decide)) rfl
    (by simp [ProgramHeader.Fits, smallSegment]) bootedSpace_kernelOnly hok
  refine ⟨proc, m', l4, hok, henclosed, ?_, ?_⟩
  · refine (hasked .fetch ⟨0x1002, by decide⟩).mpr ?_
    exact .segment (w := 0x1001) List.mem_cons_self rfl (by decide) (by decide) (by decide)
      (by decide)
  · by_contra hsome
    rcases (hasked .write ⟨0x1002, by decide⟩).mp hsome with
      ⟨hph, _, _, _, _, hright⟩ | ⟨hi, hpage, _⟩
    · obtain rfl := List.mem_singleton.mp hph
      exact absurd hright (by decide)
    · simp only [LoadArgs.boot, pageSize] at hi hpage
      omega

end Harmony
