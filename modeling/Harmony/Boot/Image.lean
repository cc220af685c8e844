import Harmony.Boot.Setup

/-!
# The image `load` builds

`Process::load` as a whole, and its result read off the page tables: bytes and effective rights
over the four levels of the walk.

* `wp_load`: what `load` leaves, returned or stopped.
* `load_builds_image`: the new address space is the image the program headers describe, the stack
  and the window, and nothing else in the lower half.
-/

namespace Harmony

open Lib

/-! ## Reading an address space -/

/-- The byte a virtual address leads to. -/
def byteAt (mem : Mem) (l4 : RawFrame) (v : VirtAddr) : Option (BitVec 8) :=
  (translate mem l4 v.page).map fun e => mem (e.1.base.addr + v.addr % pageSize)

/-- `USER_ACCESSIBLE` at every level. -/
def userAccessible (es : List Mapping) : Bool := es.all fun e => e.2.contains .userAccessible

/-- `WRITABLE` at every level. -/
def writable (es : List Mapping) : Bool := es.all fun e => e.2.contains .writable

/-- `NO_EXECUTE` at some level. -/
def noExecute (es : List Mapping) : Bool := es.any fun e => e.2.contains .noExecute

/-- `PRESENT` at every level. -/
def present (es : List Mapping) : Bool := es.all fun e => e.2.contains .present

section Rights

variable {ps : List Mapping} {e : Mapping}

/-- Below tables of the process the leaf alone decides. -/
theorem userAccessible_own (h : ∀ e ∈ ps, e.2 = parentEntry) :
    userAccessible (ps ++ [e]) = e.2.contains .userAccessible := by
  unfold userAccessible
  rw [List.all_append]
  have hps : ps.all (fun e => e.2.contains .userAccessible) = true :=
    List.all_eq_true.mpr fun d hd => by rw [h d hd]; decide
  rw [hps]
  simp

theorem writable_own (h : ∀ e ∈ ps, e.2 = parentEntry) :
    writable (ps ++ [e]) = e.2.contains .writable := by
  unfold writable
  rw [List.all_append]
  have hps : ps.all (fun e => e.2.contains .writable) = true :=
    List.all_eq_true.mpr fun d hd => by rw [h d hd]; decide
  rw [hps]
  simp

theorem present_own (h : ∀ e ∈ ps, e.2 = parentEntry) :
    present (ps ++ [e]) = e.2.contains .present := by
  unfold present
  rw [List.all_append]
  have hps : ps.all (fun e => e.2.contains .present) = true :=
    List.all_eq_true.mpr fun d hd => by rw [h d hd]; decide
  rw [hps]
  simp

theorem noExecute_own (h : ∀ e ∈ ps, e.2 = parentEntry) :
    noExecute (ps ++ [e]) = e.2.contains .noExecute := by
  unfold noExecute
  rw [List.any_append]
  have hps : ps.any (fun e => e.2.contains .noExecute) = false :=
    List.any_eq_false.mpr fun d hd => by rw [h d hd]; decide
  rw [hps]
  simp

end Rights

/-! ## `load` -/

section Load

variable {env : Env} {goblin : Goblin} {program : Program} {args : LoadArgs} {m m' : Machine}
  {proc : Process}

/-- The program headers `load` goes through. -/
def phdrsOf (goblin : Goblin) (program : Program) : Option (List ProgramHeader) :=
  goblin.programHeaders program (goblin.header program.bytes).phoff
    (goblin.header program.bytes).phnum

/-- What a returned `load` leaves: a new L4 table in frame `l4`, made in state `m₀`, with
everything placed. -/
structure Loaded (env : Env) (goblin : Goblin) (program : Program) (args : LoadArgs) (m : Machine)
    (proc : Process) (m' : Machine) (l4 : RawFrame) (m₀ : Machine) (phdrs : List ProgramHeader)
    (placed : List Placement) : Prop where
  points : proc.l4Table.Points env l4
  headers : phdrsOf goblin program = some phdrs
  space : NewSpace m l4 m₀
  laid : Laid env program args phdrs args.stackPages (args.untypedMemoryLength / pageSize) placed
  placing : Placing l4.number m₀ placed m'

/-- **`load`**, returned or stopped. -/
theorem wp_load (hfit : args.Fit env) :
    wp (Process.load env goblin program args)
      (fun proc m' => ∃ l4 m₀ phdrs placed,
        Loaded env goblin program args m proc m' l4 m₀ phdrs placed)
      (fun _ m' => Quiet m m' ∨ ∃ l4 m₀, NewSpace m l4 m₀ ∧ Untouched l4.number m₀ m') m := by
  unfold Process.load
  refine wp_seq wp_setup ?_ (fun _ _ hq => Or.inl hq)
  rintro ⟨p, a⟩ m₀ ⟨hwin, l4, hp, hnew⟩
  have hplacing := hnew.placing
  have hu : Untouched l4.number m₀ m₀ := hplacing.toUntouched
  have hp' : directMap env p.inner = .ok l4.base.addr := KPtr.directMap_of_points hp
  have hstop : ∀ m', Untouched l4.number m₀ m' →
      Quiet m m' ∨ ∃ l4 m₀, NewSpace m l4 m₀ ∧ Untouched l4.number m₀ m' :=
    fun _ hu => Or.inr ⟨l4, m₀, hnew, hu⟩
  unfold readHeaders
  simp only [hp', orPanic, wp_bind, wp_pure]
  refine wp_assert (fun _ => ?_) (fun _ => hstop m₀ hu)
  cases hadd : env.add (goblin.header program.bytes).phoff
      ((goblin.header program.bytes).phentsize * (goblin.header program.bytes).phnum) with
  | error e => exact hstop m₀ hu
  | ok phEnd =>
    simp only [wp_pure]
    refine wp_assert (fun _ => ?_) (fun _ => hstop m₀ hu)
    refine wp_assert (fun _ => ?_) (fun _ => hstop m₀ hu)
    cases hph : goblin.programHeaders program (goblin.header program.bytes).phoff
        (goblin.header program.bytes).phnum with
    | none => exact hstop m₀ hu
    | some phdrs =>
      simp only [wp_pure]
      rw [hnew.aligned.base_eq]
      refine wp_mono (wp_place hfit (hwin.lt hfit) hplacing hnew.ownTables a) ?_
        (fun _ _ hu => hstop _ hu)
      rintro _ m' ⟨placed, hlaid, hpl⟩
      exact ⟨l4, m₀, phdrs, placed, hp, hph, hnew, hlaid, hpl⟩

end Load

/-! ## The image -/

/-- The page is mapped for the process, with these rights over all levels. -/
structure Rights (mem : Mem) (l4 : RawFrame) (page : Page) (write execute : Prop) : Prop where
  walks : ∃ es, walk mem l4 page = some es ∧ present es = true ∧ userAccessible es = true ∧
    (writable es = true ↔ write) ∧ (noExecute es = false ↔ execute)

/-- The address space under `l4` is what the headers and the arguments describe. -/
structure Image (program : Program) (args : LoadArgs) (phdrs : List ProgramHeader) (mem : Mem)
    (l4 : RawFrame) : Prop where
  /-- Every byte of every page of a segment: the file's, or zero. -/
  bytes : ∀ ph ∈ phdrs, ph.type = ptLoad → ∀ w, ph.vaddr ≤ w → w < ph.vaddr + ph.memsz →
    ∀ v, v / pageSize = w / pageSize →
      ∃ a : VirtAddr, a.addr = v ∧ byteAt mem l4 a = some (segmentByte program ph v)
  rights : ∀ ph ∈ phdrs, ph.type = ptLoad → ∀ a : VirtAddr, ph.vaddr ≤ a.addr →
    a.addr < ph.vaddr + ph.memsz →
      Rights mem l4 a.page (ph.flags &&& pfW ≠ 0) (ph.flags &&& pfX ≠ 0)
  stack : ∀ i < args.stackPages, ∃ page : Page,
    page.base.addr + pageSize * (i + 1) = args.untypedMemoryOffset ∧
      Rights mem l4 page True False
  /-- The window is mapped for the kernel alone: present over all levels, and not for the user. -/
  window : ∀ i < args.untypedMemoryLength / pageSize, ∃ (page : Page) (es : List Mapping)
    (e : Mapping), page.base.addr = args.untypedMemoryOffset + pageSize * i ∧
      walk mem l4 page = some es ∧ present es = true ∧
      translate mem l4 page = some e ∧ e.1.base.addr = frameSize * i ∧
      e.2.contains .userAccessible = false
  only : ∀ page : Page, page.base.addr < 2 ^ 47 → walk mem l4 page ≠ none →
    (∃ ph ∈ phdrs, ph.type = ptLoad ∧ ∃ w, ph.vaddr ≤ w ∧ w < ph.vaddr + ph.memsz ∧
      page.base.addr = w / pageSize * pageSize) ∨
    (∃ i < args.stackPages, page.base.addr + pageSize * (i + 1) = args.untypedMemoryOffset) ∨
    ∃ i < args.untypedMemoryLength / pageSize,
      page.base.addr = args.untypedMemoryOffset + pageSize * i

section Flags

variable (ph : ProgramHeader)

theorem segmentFlags_user : (segmentFlags ph).contains .userAccessible = true := by
  unfold segmentFlags
  split_ifs <;> decide

theorem segmentFlags_present : (segmentFlags ph).contains .present = true := by
  unfold segmentFlags
  split_ifs <;> decide

theorem segmentFlags_writable :
    (segmentFlags ph).contains .writable = true ↔ ph.flags &&& pfW ≠ 0 := by
  unfold segmentFlags
  by_cases hw : ph.flags &&& pfW ≠ 0
  · refine iff_of_true ?_ hw
    simp only [if_pos hw]
    split_ifs <;> decide
  · refine iff_of_false ?_ hw
    simp only [if_neg hw]
    split_ifs <;> decide

theorem segmentFlags_noExecute :
    (segmentFlags ph).contains .noExecute = false ↔ ph.flags &&& pfX ≠ 0 := by
  unfold segmentFlags
  by_cases hx : ph.flags &&& pfX = 0
  · refine iff_of_false ?_ (not_not_intro hx)
    simp only [if_pos hx]
    split_ifs <;> decide
  · refine iff_of_true ?_ hx
    simp only [if_neg hx]
    split_ifs <;> decide

end Flags

section Image

variable {env : Env} {goblin : Goblin} {program : Program} {args : LoadArgs} {m m' m₀ : Machine}
  {proc : Process} {l4 : RawFrame} {phdrs : List ProgramHeader} {placed : List Placement}
  {p : Placement}

/-- An address on a page is canonical as the page is. -/
theorem Page.exists_addr (page : Page) {v : Nat} (h : v / pageSize * pageSize = page.base.addr) :
    ∃ a : VirtAddr, a.addr = v ∧ a.page = page := by
  have hcan : VirtAddr.newTruncate v = v := by
    refine canonical_iff.mpr ?_
    have := canonical_iff.mp page.base.canonical
    simp only [pageSize] at h
    omega
  exact ⟨⟨v, hcan⟩, rfl, Page.ext_base h⟩

namespace Loaded

/-- A placed page walks to its frame. -/
theorem walk_eq (h : Loaded env goblin program args m proc m' l4 m₀ phdrs placed)
    (hp : p ∈ placed) : ∃ ps : List Mapping,
      walk m'.mem l4 p.page = some (ps ++ [(p.frame, p.flags)]) ∧
      (∀ e ∈ ps, e.2.contains .present = true) ∧
      (p.content.owned = true → ∀ e ∈ ps, e.2 = parentEntry) := by
  obtain ⟨ps, _, hpresent, hown, htr⟩ := (h.placing.holds p hp).walks
  exact ⟨ps, (walk_eq_trail m'.mem h.space.aligned p.page).trans htr, hpresent, hown⟩

theorem translate_eq (h : Loaded env goblin program args m proc m' l4 m₀ phdrs placed)
    (hp : p ∈ placed) : translate m'.mem l4 p.page = some (p.frame, p.flags) := by
  obtain ⟨ps, hw, _⟩ := h.walk_eq hp
  unfold translate
  rw [hw]
  simp

/-- The rights of a page of the process are those of its leaf. -/
theorem rights (h : Loaded env goblin program args m proc m' l4 m₀ phdrs placed) (hp : p ∈ placed)
    (hown : p.content.owned = true) {write execute : Prop}
    (hpresent : p.flags.contains .present = true)
    (huser : p.flags.contains .userAccessible = true)
    (hwrite : p.flags.contains .writable = true ↔ write)
    (hexec : p.flags.contains .noExecute = false ↔ execute) :
    Rights m'.mem l4 p.page write execute := by
  obtain ⟨ps, hw, _, hps⟩ := h.walk_eq hp
  have hps := hps hown
  refine ⟨_, hw, ?_, ?_, ?_, ?_⟩
  · rw [present_own hps]
    exact hpresent
  · rw [userAccessible_own hps]
    exact huser
  · rw [writable_own hps]
    exact hwrite
  · rw [noExecute_own hps]
    exact hexec

/-- A byte of a filled page. -/
theorem byteAt_eq (h : Loaded env goblin program args m proc m' l4 m₀ phdrs placed)
    (hp : p ∈ placed) {bytes : Nat → BitVec 8} (hdata : p.content = .data bytes) {a : VirtAddr}
    (ha : a.page = p.page) : byteAt m'.mem l4 a = some (bytes (a.addr % pageSize)) := by
  have hc := (h.placing.holds p hp).content
  rw [hdata] at hc
  unfold byteAt
  rw [ha, h.translate_eq hp]
  exact congrArg some (hc _ (Nat.mod_lt _ (by decide)))

/-- The segment's page of an address the header covers. -/
theorem segment (h : Loaded env goblin program args m proc m' l4 m₀ phdrs placed)
    {ph : ProgramHeader} (hph : ph ∈ phdrs) (hload : ph.type = ptLoad) (hfits : ph.Fits) {w : Nat}
    (hge : ph.vaddr ≤ w) (hlt : w < ph.vaddr + ph.memsz) :
    ∃ p ∈ placed, IsSegmentPage env program ph (ph.vaddr + ph.memsz) p ∧
      p.page.base.addr = w / pageSize * pageSize := by
  obtain ⟨vmEnd, hvm, hall⟩ := h.laid.segments ph hph hload
  rw [Env.add_of_lt env hfits.1] at hvm
  obtain rfl := Except.ok.inj hvm
  exact hall w hge hlt

/-- **A returned `load` has built the image.** -/
theorem image (h : Loaded env goblin program args m proc m' l4 m₀ phdrs placed)
    (hfits : ∀ ph ∈ phdrs, ph.type = ptLoad → ph.Fits) : Image program args phdrs m'.mem l4 where
  bytes ph hph hload w hge hlt v hv := by
    obtain ⟨p, hp, hseg, hbase⟩ := h.segment hph hload (hfits ph hph hload) hge hlt
    obtain ⟨bytes, hdata, _, hbytes⟩ := hseg.content
    obtain ⟨a, rfl, hpage⟩ := p.page.exists_addr (v := v) (by rw [hv, hbase])
    refine ⟨a, rfl, ?_⟩
    rw [h.byteAt_eq hp hdata hpage,
      hbytes (hfits ph hph hload) _ (Nat.mod_lt _ (by decide)), hbase, ← hv]
    have := Nat.div_add_mod a.addr pageSize
    rw [Nat.mul_comm, this]
  rights ph hph hload a hge hlt := by
    obtain ⟨p, hp, hseg, hbase⟩ := h.segment hph hload (hfits ph hph hload) hge hlt
    obtain ⟨bytes, hdata, _⟩ := hseg.content
    have hpage : p.page = a.page := Page.ext_base hbase
    rw [← hpage]
    refine h.rights hp (by rw [hdata]; rfl) ?_ ?_ ?_ ?_ <;> rw [hseg.flags]
    · exact segmentFlags_present ph
    · exact segmentFlags_user ph
    · exact segmentFlags_writable ph
    · exact segmentFlags_noExecute ph
  stack i hi := by
    obtain ⟨p, hp, hst⟩ := h.laid.stack i hi
    refine ⟨p.page, hst.page, h.rights hp (by rw [hst.content]; rfl) ?_ ?_ ?_ ?_⟩ <;>
      rw [hst.flags] <;> decide
  window i hi := by
    obtain ⟨p, hp, hwin⟩ := h.laid.window i hi
    obtain ⟨ps, hw, hpresent, _⟩ := h.walk_eq hp
    refine ⟨p.page, _, _, hwin.page, hw, ?_, h.translate_eq hp, hwin.frame, ?_⟩
    · have hleaf : p.flags.contains .present = true := by
        rw [hwin.flags]
        decide
      refine List.all_eq_true.mpr fun e he => ?_
      rcases List.mem_append.mp he with he | he
      · exact hpresent e he
      · rw [List.mem_singleton.mp he]
        exact hleaf
    · show p.flags.contains .userAccessible = false
      rw [hwin.flags]
      decide
  only page hlow hsome := by
    rw [walk_eq_trail _ h.space.aligned] at hsome
    obtain ⟨p, hp, rfl⟩ := h.placing.complete page (page.index_four_lt_iff.mpr hlow) hsome
    rcases h.laid.sound p hp with ⟨ph, hph, hload, vmEnd, hvm, hseg⟩ | ⟨i, hi, hst⟩ | ⟨i, hi, hwin⟩
    · rw [Env.add_of_lt env (hfits ph hph hload).1] at hvm
      obtain rfl := Except.ok.inj hvm
      exact Or.inl ⟨ph, hph, hload, hseg.address⟩
    · exact Or.inr (Or.inl ⟨i, hi, hst.page⟩)
    · exact Or.inr (Or.inr ⟨i, hi, hwin.page⟩)

end Loaded

/-- **`load` builds exactly the image the program headers describe.** -/
theorem load_builds_image (hfit : args.Fit env) (hheaders : phdrsOf goblin program = some phdrs)
    (hfits : ∀ ph ∈ phdrs, ph.type = ptLoad → ph.Fits)
    (hok : Process.load env goblin program args m = .ok proc m') :
    ∃ l4, proc.l4Table.Points env l4 ∧ Image program args phdrs m'.mem l4 := by
  obtain ⟨l4, m₀, phdrs', placed, h⟩ := wp_ok (wp_load hfit) hok
  obtain rfl := Option.some.inj (h.headers.symm.trans hheaders)
  exact ⟨l4, h.points, h.image hfits⟩

end Image

/-- An image of 200 bytes, byte `i` being `i`. -/
def smallProgram : Program where
  addr := 0
  len := 200
  bytes i := BitVec.ofNat 8 i
  outside _ := none

/-- A crate that reads these headers from every image. -/
def Goblin.always (phdrs : List ProgramHeader) : Goblin where
  header _ := { entry := 0x1000, phoff := 64, phentsize := 56, phnum := phdrs.length }
  programHeaders _ _ _ := some phdrs

/-- Three bytes at `0x1001`, the first two of them in the file. -/
def smallSegment : ProgramHeader where
  type := ptLoad
  flags := pfR ||| pfX
  offset := 120
  vaddr := 0x1001
  filesz := 2
  memsz := 3
  offset_lt := by decide
  vaddr_lt := by decide
  filesz_lt := by decide
  memsz_lt := by decide

/-- Frame 1 is the boot table, whose last entry leads to the table in frame 2, without user
access. -/
def bootedSpace : Machine where
  mem a := if a = 0x1ff8 then 0x03 else if a = 0x1ff9 then 0x20 else 0
  retypeMap := [.unavailable, .kernel 1 RetypeEntry.one_le_maxRefCount,
      .kernel 1 RetypeEntry.one_le_maxRefCount] ++
    List.replicate 24 .untyped
  cr3 := frameOne
  trace := []

theorem load_builds_image_small : ∃ proc m' l4,
    Process.load Env.dev (.always [smallSegment]) smallProgram ⟨1, 0x5000, 0x1000⟩ bootedSpace =
      .ok proc m' ∧ Image smallProgram ⟨1, 0x5000, 0x1000⟩ [smallSegment] m'.mem l4 := by
  have hrun : wp (Process.load Env.dev (.always [smallSegment]) smallProgram ⟨1, 0x5000, 0x1000⟩)
      (fun _ _ => True) (fun _ _ => False) bootedSpace := by decide +kernel
  obtain ⟨proc, m', hok, _⟩ := exists_of_wp hrun
  obtain ⟨l4, _, himage⟩ := load_builds_image (Or.inl rfl) rfl
    (by simp [ProgramHeader.Fits, smallSegment]) hok
  exact ⟨proc, m', l4, hok, himage⟩

/-- The last page of the address space. -/
def lastPage : Page := ⟨⟨0xFFFFFFFFFFFFF000, by decide⟩, by decide⟩

/-- **Without overflow checks the stack below a window at zero wraps into the kernel half**: `load`
returns, the stack page is the last of the address space, and the process has no access to it. -/
theorem load_wraps_stack : ∃ proc m' l4,
    Process.load Env.release (.always []) smallProgram ⟨1, 0, 0⟩ bootedSpace = .ok proc m' ∧
      proc.l4Table.Points Env.release l4 ∧
      (walk m'.mem l4 lastPage).map userAccessible = some false ∧
      ¬ Image smallProgram ⟨1, 0, 0⟩ [] m'.mem l4 := by
  have hrun : wp (Process.load Env.release (.always []) smallProgram ⟨1, 0, 0⟩)
      (fun proc m' => proc.l4Table.inner.addr = Env.release.pmo + 0x3000 ∧
        (walk m'.mem ⟨⟨0x3000, by decide⟩⟩ lastPage).map userAccessible = some false)
      (fun _ _ => False) bootedSpace := by decide +kernel
  obtain ⟨proc, m', hok, hpoints, hwalk⟩ := exists_of_wp hrun
  refine ⟨proc, m', ⟨⟨0x3000, by decide⟩⟩, hok, hpoints, hwalk, fun h => ?_⟩
  obtain ⟨page, hpage, _⟩ := h.stack 0 (by decide)
  simp only [pageSize] at hpage
  omega

end Harmony
