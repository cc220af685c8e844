import Harmony.Boot.Placing

/-!
# The loader's loops

Each loop of `Process::load` adds placements. What a loop placed is stated by the numbers it works
with: the segment loop by the program header, the stack and window loops by their counters.

* `wp_segmentPage`, `wp_segmentLoop`, `wp_segmentLoad`: one page, the pages of a segment, one
  header. The two cursors of the loop meet the header in `segmentByte`.
* `wp_stackPage`, `wp_windowPage`: one turn of the other two loops.
* `wp_place`: all of it.
-/

namespace Harmony

open Lib
open BumpAllocator (Claimed)

/-! ## One page of a segment -/

/-- What `fillPage` leaves in a page: `count` bytes of the image from `fcurrent` on, at `start`. -/
def filled (program : Program) (start fcurrent count : Nat) : Nat → BitVec 8 := fun i =>
  if start ≤ i ∧ i < start + count then (program.read (fcurrent + (i - start))).getD 0 else 0

section Fill

variable {program : Program} {f : RawFrame} {m : Machine}

theorem frameWrite_store {k n : Nat} (hf : f.Aligned) (hn : k + n ≤ pageSize)
    (bytes : Nat → BitVec 8) : FrameWrite f m (m.store (f.base.addr + k) n bytes) where
  cr3 := rfl
  trace := rfl
  typing _ := rfl
  mem x hx := by
    apply store_apply_of_not_mem
    rw [hf.base_eq]
    simp only [frameSize, pageSize] at hx hn ⊢
    omega

theorem FrameWrite.trans {m' m'' : Machine} (h : FrameWrite f m m') (h' : FrameWrite f m' m'') :
    FrameWrite f m m'' where
  cr3 := h'.cr3.trans h.cr3
  trace := h'.trace.trans h.trace
  typing n := (h'.typing n).trans (h.typing n)
  mem x hx := (h'.mem x hx).trans (h.mem x hx)

theorem copyFrom_eq_ok {start count : Nat} {bytes : Nat → BitVec 8}
    (h : program.copyFrom start count = .ok bytes) :
    bytes = fun i => (program.read (start + i)).getD 0 := by
  unfold Program.copyFrom at h
  split_ifs at h
  exact (Except.ok.inj h).symm

/-- **The two writes of a segment's page.** Wherever they stop, only the page was written. -/
theorem wp_fillPage (hf : f.Aligned) {vcurrent fcurrent count : Nat}
    (hcount : vcurrent % pageSize + count ≤ pageSize) :
    wp (fillPage program f.base.addr vcurrent fcurrent count)
      (fun _ m' => FrameWrite f m m' ∧ ∀ i < pageSize, m'.mem (f.base.addr + i) =
        filled program (vcurrent % pageSize) fcurrent count i)
      (fun _ m' => FrameWrite f m m') m := by
  have hzero : FrameWrite f m (m.store f.base.addr pageSize fun _ => 0) :=
    frameWrite_store (k := 0) hf (Nat.le_of_eq (Nat.zero_add _)) _
  have hcleared : ∀ i < pageSize, (m.store f.base.addr pageSize fun _ => 0).mem
      (f.base.addr + i) = 0 := by
    intro i hi
    rw [Machine.store_mem,
      store_apply_of_mem ⟨Nat.le_add_right _ _, Nat.add_lt_add_left hi _⟩]
  unfold fillPage
  rw [wp_bind, wp_modify, wp_ite]
  refine ⟨fun hpos => ?_, fun hpos => ?_⟩
  · rw [wp_bind]
    refine wp_orPanic (fun bytes hbytes => ?_) (fun _ _ => hzero)
    rw [wp_modify]
    refine ⟨hzero.trans (frameWrite_store hf hcount _), fun i hi => ?_⟩
    obtain rfl := copyFrom_eq_ok hbytes
    rw [Machine.store_mem, store_offset, hcleared i hi]
    rfl
  · refine ⟨hzero, fun i hi => (hcleared i hi).trans ?_⟩
    unfold filled
    rw [if_neg (by omega)]

end Fill

section Page

variable {env : Env} {program : Program} {ph : ProgramHeader} {root : Nat} {m₀ m : Machine}
  {placed : List Placement}

theorem segmentFlags_ne (ph : ProgramHeader) : (segmentFlags ph).bits ≠ 0 := by
  unfold segmentFlags
  split_ifs <;> decide

/-- The page of an address below the upper half is in the lower half. -/
theorem lowHalf_of_lt {page : Page} (h : page.base.addr < 0xFFFF800000000000) :
    lowHalf (page.key 4) := by
  refine page.index_four_lt_iff.mpr ?_
  have := canonical_iff.mp page.base.canonical
  omega

/-- One turn of the segment loop placed one page. -/
structure SegmentTurn (env : Env) (program : Program) (ph : ProgramHeader) (root : Nat)
    (m₀ : Machine) (placed : List Placement) (fileEnd vcurrent fcurrent : Nat)
    (r : Nat × Nat × BumpAllocator) (m' : Machine) (p : Placement) (left : Nat) : Prop where
  left_eq : env.sub fileEnd fcurrent = .ok left
  next : env.add vcurrent (pageSize - vcurrent % pageSize) = .ok r.1
  fnext : env.add fcurrent (min left (pageSize - vcurrent % pageSize)) = .ok r.2.1
  page : p.page.base.addr = vcurrent / pageSize * pageSize
  flags : p.flags = segmentFlags ph
  content : p.content = .data (filled program (vcurrent % pageSize) fcurrent
    (min left (pageSize - vcurrent % pageSize)))
  placing : Placing root m₀ (placed ++ [p]) m'
  own : OwnTables root m'

/-- **One page of a segment.** -/
theorem wp_segmentPage (h : Placing root m₀ placed m) (hown : OwnTables root m)
    {fileEnd vcurrent fcurrent : Nat} (hv : vcurrent < 0xFFFF800000000000) (a : BumpAllocator) :
    wp (segmentPage env (root * frameSize) program ph fileEnd vcurrent fcurrent a)
      (fun r m' => ∃ p left,
        SegmentTurn env program ph root m₀ placed fileEnd vcurrent fcurrent r m' p left)
      (fun _ m' => Untouched root m₀ m') m := by
  unfold segmentPage
  refine wp_seq (BumpAllocator.wp_allocUserFrame a) ?_ ?_
  swap
  · rintro _ m' rfl
    exact h.toUntouched
  rintro ⟨r, a₁⟩ m₁ hr
  cases r with
  | none =>
    obtain rfl : m₁ = m := hr
    simp only [unwrap, wp_bind, wp_throw]
    exact h.toUntouched
  | some u =>
    have hc : Claimed .user m u.frame m₁ := hr
    have h₁ := h.claim hc
    have hpend := h.pending hc
    simp only [unwrap, pure_bind, wp_bind]
    refine wp_orPanic (fun addr haddr => ?_) (fun _ _ => h₁.toUntouched)
    refine wp_orPanic (fun page hpage => ?_) (fun _ _ => h₁.toUntouched)
    refine wp_assert (fun _ => ?_) (fun _ => h₁.toUntouched)
    have hbase : page.base.addr = vcurrent / pageSize * pageSize := by
      rw [Page.containingAddress_eq_ok hpage, VirtAddr.new_eq_ok haddr]
    have hlow : lowHalf (page.key 4) := lowHalf_of_lt (by
      rw [hbase]
      exact Nat.lt_of_le_of_lt (Nat.div_mul_le_self _ _) hv)
    refine wp_mono (h₁.wp_mapOwned (hown.claim hc) hpend hlow (segmentFlags_ne ph) a₁) ?_
      (fun _ _ hu => hu)
    rintro ⟨r, a₂⟩ m₂ hr₂
    cases r with
    | error e => exact hr₂
    | ok w =>
      obtain ⟨h₂, hown₂⟩ := hr₂
      have hlast := h₂.holds _ (List.mem_append_right placed List.mem_cons_self)
      have hu₂ := h₂.toUntouched
      simp only [unwrapOk, wp_pure]
      refine wp_orPanic (fun ptr hptr => ?_) (fun _ _ => hu₂)
      refine wp_orPanic (fun left hleft => ?_) (fun _ _ => hu₂)
      obtain rfl := RawFrame.ptr_eq_ok hptr
      have hcount : vcurrent % pageSize + min left (pageSize - vcurrent % pageSize) ≤ pageSize := by
        have := Nat.mod_lt vcurrent (show 0 < pageSize by decide)
        omega
      refine wp_mono (wp_fillPage hpend.aligned hcount) ?_
        (fun _ _ hw => hw.untouched hu₂ hpend.was_untyped)
      rintro _ m₃ ⟨hw, hbytes⟩
      have h₃ := h₂.fill hw hbytes
      refine wp_orPanic (fun vnext hvnext => ?_) (fun _ _ => h₃.toUntouched)
      refine wp_orPanic (fun fnext hfnext => ?_) (fun _ _ => h₃.toUntouched)
      exact ⟨_, left, hleft, hvnext, hfnext, hbase, rfl, rfl, h₃,
        hown₂.write hw h₂.rooted (hlast.typed rfl).2⟩

end Page

/-! ## The pages of a segment -/

/-- Neither range of the header overflows. -/
def ProgramHeader.Fits (ph : ProgramHeader) : Prop :=
  ph.vaddr + ph.memsz < 2 ^ 64 ∧ ph.offset + ph.filesz < 2 ^ 64

/-- The byte the header describes at address `v` of its pages. -/
def segmentByte (program : Program) (ph : ProgramHeader) (v : Nat) : BitVec 8 :=
  if ph.vaddr ≤ v ∧ v < ph.vaddr + ph.filesz then program.bytes (ph.offset + (v - ph.vaddr)) else 0

/-- The two cursors of the segment loop after `turns` turns, in the arithmetic of the profile. -/
def cursorAfter (env : Env) (ph : ProgramHeader) (fileEnd : Nat) : Nat → Except Panic (Nat × Nat)
  | 0 => .ok (ph.vaddr, ph.offset)
  | turns + 1 => do
    let (vcurrent, fcurrent) ← cursorAfter env ph fileEnd turns
    let left ← env.sub fileEnd fcurrent
    let vnext ← env.add vcurrent (pageSize - vcurrent % pageSize)
    let fnext ← env.add fcurrent (min left (pageSize - vcurrent % pageSize))
    pure (vnext, fnext)

/-- What the turn for `page` leaves in it: a function of the header alone, wrapped or not. -/
def turnBytes (env : Env) (program : Program) (ph : ProgramHeader) (page : Page) :
    Except Panic (Nat → BitVec 8) := do
  let fileEnd ← env.add ph.offset ph.filesz
  let (vcurrent, fcurrent) ← cursorAfter env ph fileEnd
    (page.base.addr / pageSize - ph.vaddr / pageSize)
  let left ← env.sub fileEnd fcurrent
  pure (filled program (vcurrent % pageSize) fcurrent (min left (pageSize - vcurrent % pageSize)))

/-- A page of the segment that ends at `vmEnd`. -/
structure IsSegmentPage (env : Env) (program : Program) (ph : ProgramHeader) (vmEnd : Nat)
    (p : Placement) : Prop where
  flags : p.flags = segmentFlags ph
  address : ∃ v, ph.vaddr ≤ v ∧ v < vmEnd ∧ p.page.base.addr = v / pageSize * pageSize
  content : ∃ bytes, p.content = .data bytes ∧ turnBytes env program ph p.page = .ok bytes ∧
    (ph.Fits → ∀ i < pageSize, bytes i = segmentByte program ph (p.page.base.addr + i))

/-- The cursors of the segment loop: at the segment's start, or past it at a page boundary; in the
file, as far as the file part goes. -/
structure Cursor (env : Env) (ph : ProgramHeader) (fileEnd vcurrent fcurrent : Nat) : Prop where
  position : vcurrent = ph.vaddr ∨ (ph.vaddr < vcurrent ∧ vcurrent % pageSize = 0)
  file : ph.Fits → fcurrent = ph.offset + min ph.filesz (vcurrent - ph.vaddr)
  turns : cursorAfter env ph fileEnd (vcurrent / pageSize - ph.vaddr / pageSize) =
    .ok (vcurrent, fcurrent)

section Loop

variable {env : Env} {program : Program} {ph : ProgramHeader} {root : Nat} {m₀ : Machine}
  {vmEnd fileEnd vcurrent fcurrent left : Nat}

theorem Cursor.start (env : Env) (ph : ProgramHeader) (fileEnd : Nat) :
    Cursor env ph fileEnd ph.vaddr ph.offset where
  position := Or.inl rfl
  file _ := by simp
  turns := by
    rw [Nat.sub_self]
    rfl

/-- The end of the file part, and that the image has it all. -/
def FileEnd (program : Program) (ph : ProgramHeader) (fileEnd : Nat) : Prop :=
  ph.Fits → fileEnd = ph.offset + ph.filesz ∧ fileEnd ≤ program.len

theorem Cursor.left_eq (hcur : Cursor env ph fileEnd vcurrent fcurrent)
    (hend : FileEnd program ph fileEnd)
    (hfits : ph.Fits) (hleft : env.sub fileEnd fcurrent = .ok left) :
    left = ph.filesz - min ph.filesz (vcurrent - ph.vaddr) := by
  have hf := hcur.file hfits
  have he := (hend hfits).1
  rw [Env.sub_of_le env (by omega)] at hleft
  have := Except.ok.inj hleft
  omega

/-- **The cursors meet the header**: what a turn copies is what the header describes. -/
theorem Cursor.filled_eq (hcur : Cursor env ph fileEnd vcurrent fcurrent)
    (hend : FileEnd program ph fileEnd)
    (hfits : ph.Fits) (hleft : env.sub fileEnd fcurrent = .ok left) {i : Nat} (hi : i < pageSize) :
    filled program (vcurrent % pageSize) fcurrent (min left (pageSize - vcurrent % pageSize)) i =
      segmentByte program ph (vcurrent / pageSize * pageSize + i) := by
  have hl := hcur.left_eq hend hfits hleft
  have hf := hcur.file hfits
  obtain ⟨he, hlen⟩ := hend hfits
  have hpos := hcur.position
  have hdiv := Nat.div_add_mod vcurrent pageSize
  unfold filled segmentByte
  by_cases hin : vcurrent % pageSize ≤ i ∧
      i < vcurrent % pageSize + min left (pageSize - vcurrent % pageSize)
  · -- past the offset in the page both cursors move on together
    have hat : vcurrent / pageSize * pageSize + i = vcurrent + (i - vcurrent % pageSize) := by
      rw [Nat.mul_comm]
      omega
    have hcopied : min ph.filesz (vcurrent - ph.vaddr) = vcurrent - ph.vaddr := by omega
    have hstart : ph.vaddr ≤ vcurrent := by omega
    have hrange : ph.vaddr ≤ vcurrent / pageSize * pageSize + i ∧
        vcurrent / pageSize * pageSize + i < ph.vaddr + ph.filesz := by
      rw [hat]
      omega
    have hsrc : fcurrent + (i - vcurrent % pageSize) =
        ph.offset + (vcurrent / pageSize * pageSize + i - ph.vaddr) := by
      rw [hat]
      omega
    have hlt : fcurrent + (i - vcurrent % pageSize) < program.len := by omega
    rw [if_pos hin, if_pos hrange, Program.read, if_pos hlt, hsrc]
    rfl
  · have hout : ¬ (ph.vaddr ≤ vcurrent / pageSize * pageSize + i ∧
        vcurrent / pageSize * pageSize + i < ph.vaddr + ph.filesz) := by
      rw [Nat.mul_comm]
      by_cases hbelow : i < vcurrent % pageSize
      · -- below the offset there is something only in the segment's first page
        have hfirst : vcurrent = ph.vaddr := by omega
        omega
      · have hpast : left ≤ i - vcurrent % pageSize := by omega
        omega
    rw [if_neg hin, if_neg hout]

theorem Cursor.next (hcur : Cursor env ph fileEnd vcurrent fcurrent)
    (hend : FileEnd program ph fileEnd)
    (hv : vcurrent < 0xFFFF800000000000) (hleft : env.sub fileEnd fcurrent = .ok left)
    {vnext fnext : Nat}
    (hvnext : env.add vcurrent (pageSize - vcurrent % pageSize) = .ok vnext)
    (hfnext : env.add fcurrent (min left (pageSize - vcurrent % pageSize)) = .ok fnext) :
    vnext = vcurrent + (pageSize - vcurrent % pageSize) ∧ Cursor env ph fileEnd vnext fnext := by
  have hpos := hcur.position
  have hvok := hvnext
  rw [Env.add_of_lt env (by simp only [pageSize]; omega)] at hvnext
  obtain rfl := (Except.ok.inj hvnext).symm
  refine ⟨rfl, ?_, fun hfits => ?_, ?_⟩
  · right
    simp only [pageSize] at *
    omega
  · have hl := hcur.left_eq hend hfits hleft
    have hf := hcur.file hfits
    have hsum := hfits.2
    rw [Env.add_of_lt env (by omega)] at hfnext
    have := Except.ok.inj hfnext
    simp only [pageSize] at *
    omega
  · have hturn : (vcurrent + (pageSize - vcurrent % pageSize)) / pageSize - ph.vaddr / pageSize =
        (vcurrent / pageSize - ph.vaddr / pageSize) + 1 := by
      simp only [pageSize] at *
      omega
    rw [hturn]
    unfold cursorAfter
    simp only [hcur.turns, hleft, hvok, hfnext, bind, Except.bind]
    rfl

/-- What the segment that ends at `vmEnd` added from `start` on: pages of the segment, and all of
them. -/
structure SegmentPages (env : Env) (program : Program) (ph : ProgramHeader) (start vmEnd : Nat)
    (ps : List Placement) : Prop where
  sound : ∀ p ∈ ps, IsSegmentPage env program ph vmEnd p
  covers : ∀ v, start ≤ v → v < vmEnd → ∃ p ∈ ps, p.page.base.addr = v / pageSize * pageSize

/-- **The segment loop.** Induction on the bound; the page of the current turn comes first. -/
theorem wp_segmentLoop (hvm : vmEnd ≤ 0xFFFF800000000000) (hend : FileEnd program ph fileEnd)
    (hfile : env.add ph.offset ph.filesz = .ok fileEnd) (bound : Nat) :
    ∀ (vcurrent fcurrent : Nat) (a : BumpAllocator) (m : Machine)
      (placed : List Placement), Cursor env ph fileEnd vcurrent fcurrent →
      vmEnd ≤ vcurrent + bound →
      Placing root m₀ placed m → OwnTables root m →
      wp (segmentLoop env (root * frameSize) program ph vmEnd fileEnd bound vcurrent fcurrent a)
        (fun _ m' => ∃ ps, SegmentPages env program ph vcurrent vmEnd ps ∧
          Placing root m₀ (placed ++ ps) m' ∧ OwnTables root m')
        (fun _ m' => Untouched root m₀ m') m := by
  have hdone : ∀ (vcurrent : Nat) (m : Machine) (placed : List Placement), vmEnd ≤ vcurrent →
      Placing root m₀ placed m → OwnTables root m →
      ∃ ps, SegmentPages env program ph vcurrent vmEnd ps ∧ Placing root m₀ (placed ++ ps) m ∧
        OwnTables root m := by
    intro vcurrent m placed hle h hown
    refine ⟨[], ⟨fun p hp => absurd hp (by simp), fun v hv hlt => by omega⟩, ?_, hown⟩
    rw [List.append_nil]
    exact h
  induction bound with
  | zero =>
    intro vcurrent fcurrent a m placed _ hbound h hown
    exact hdone vcurrent m placed hbound h hown
  | succ bound ih =>
    intro vcurrent fcurrent a m placed hcur hbound h hown
    unfold segmentLoop
    rw [wp_ite]
    refine ⟨fun hlt => ?_, fun hge => hdone vcurrent m placed (by omega) h hown⟩
    have hv : vcurrent < 0xFFFF800000000000 := by omega
    refine wp_seq (wp_segmentPage h hown hv a) ?_ (fun _ _ hu => hu)
    rintro ⟨vnext, fnext, a'⟩ m' ⟨p, left, ht⟩
    obtain ⟨hvnext, hcur'⟩ := hcur.next hend hv ht.left_eq ht.next ht.fnext
    have hmod := Nat.mod_lt vcurrent (show 0 < pageSize by decide)
    refine wp_mono (ih vnext fnext a' m' _ hcur' (by simp only at hvnext; omega) ht.placing
      ht.own) ?_ (fun _ _ hu => hu)
    rintro _ m'' ⟨ps, hps, h'', hown''⟩
    rw [List.append_assoc] at h''
    refine ⟨[p] ++ ps, ⟨?_, ?_⟩, h'', hown''⟩
    · intro q hq
      rcases List.mem_append.mp hq with hq | hq
      · obtain rfl := List.mem_singleton.mp hq
        refine ⟨ht.flags, ⟨vcurrent, ?_, hlt, ht.page⟩, _, ht.content, ?_, fun hfits i hi => ?_⟩
        · rcases hcur.position with rfl | ⟨hpast, _⟩
          · exact Nat.le_refl _
          · exact Nat.le_of_lt hpast
        · have hturn : q.page.base.addr / pageSize = vcurrent / pageSize := by
            rw [ht.page]
            exact Nat.mul_div_cancel _ (by decide)
          unfold turnBytes
          simp only [hfile, hturn, hcur.turns, ht.left_eq, bind, Except.bind]
          rfl
        · rw [ht.page]
          exact hcur.filled_eq hend hfits ht.left_eq hi
      · exact hps.sound q hq
    · intro v hge hlt'
      by_cases hnext : v < vnext
      · refine ⟨p, List.mem_append_left _ List.mem_cons_self, ?_⟩
        have hsame : v / pageSize = vcurrent / pageSize := by
          simp only [pageSize] at *
          omega
        rw [ht.page, hsame]
      · obtain ⟨q, hq, hbase⟩ := hps.covers v (Nat.le_of_not_lt hnext) hlt'
        exact ⟨q, List.mem_append_right _ hq, hbase⟩

end Loop

/-! ## One header -/

section Load

variable {env : Env} {program : Program} {ph : ProgramHeader} {root : Nat} {m₀ m : Machine}
  {placed : List Placement}

/-- What a loaded header added. -/
def SegmentLoaded (env : Env) (program : Program) (ph : ProgramHeader) (ps : List Placement) :
    Prop :=
  ∃ vmEnd, env.add ph.vaddr ph.memsz = .ok vmEnd ∧ SegmentPages env program ph ph.vaddr vmEnd ps

/-- **`Segment::load`.** -/
theorem wp_segmentLoad (h : Placing root m₀ placed m) (hown : OwnTables root m)
    (a : BumpAllocator) :
    wp (segmentLoad env (root * frameSize) program ph a)
      (fun _ m' => ∃ ps, SegmentLoaded env program ph ps ∧ Placing root m₀ (placed ++ ps) m' ∧
        OwnTables root m')
      (fun _ m' => Untouched root m₀ m') m := by
  have hu := h.toUntouched
  unfold segmentLoad
  simp only [wp_bind]
  refine wp_orPanic (fun vmEnd hvm => ?_) (fun _ _ => hu)
  refine wp_orPanic (fun fileEnd hfile => ?_) (fun _ _ => hu)
  refine wp_assert (fun hvmEnd => ?_) (fun _ => hu)
  refine wp_assert (fun hlen => ?_) (fun _ => hu)
  refine wp_assert (fun _ => ?_) (fun _ => hu)
  have hend : FileEnd program ph fileEnd := by
    intro hfits
    have hsum := hfile
    rw [Env.add_of_lt env hfits.2] at hsum
    exact ⟨(Except.ok.inj hsum).symm, of_decide_eq_true hlen⟩
  refine wp_mono (wp_segmentLoop (of_decide_eq_true hvmEnd) hend hfile (vmEnd - ph.vaddr)
    ph.vaddr ph.offset a m placed (Cursor.start env ph fileEnd) (by omega) h hown) ?_
      (fun _ _ hu => hu)
  rintro _ m' ⟨ps, hps, h', hown'⟩
  exact ⟨ps, ⟨vmEnd, hvm, hps⟩, h', hown'⟩

end Load

/-! ## The other two loops -/

/-- The arithmetic of `load` on its own arguments does not wrap: the profile checks it, or there is
room for the stack below the window and for the window. -/
def LoadArgs.Fit (env : Env) (args : LoadArgs) : Prop :=
  env.overflowChecks = true ∨ (args.stackPages * pageSize ≤ args.untypedMemoryOffset ∧
    args.untypedMemoryOffset + args.untypedMemoryLength < 2 ^ 64)

/-- Stack page `i`, counted down from the window. -/
structure IsStackPage (args : LoadArgs) (i : Nat) (p : Placement) : Prop where
  page : p.page.base.addr + pageSize * (i + 1) = args.untypedMemoryOffset
  flags : p.flags = stackFlags
  content : p.content = .stale

/-- Page `i` of the window: physical frame `i`. -/
structure IsWindowPage (args : LoadArgs) (i : Nat) (p : Placement) : Prop where
  page : p.page.base.addr = args.untypedMemoryOffset + pageSize * i
  frame : p.frame.base.addr = frameSize * i
  flags : p.flags = .present
  content : p.content = .window

section Pages

variable {env : Env} {args : LoadArgs} {root : Nat} {m₀ m : Machine} {placed : List Placement}

/-- The address of a stack page. -/
theorem stack_addr (hfit : args.Fit env) {i next depth addr : Nat} (hi : i < args.stackPages)
    (hnext : env.add i 1 = .ok next) (hdepth : env.mul pageSize next = .ok depth)
    (haddr : env.sub args.untypedMemoryOffset depth = .ok addr) :
    addr + pageSize * (i + 1) = args.untypedMemoryOffset := by
  rcases hfit with hchecks | ⟨hroom, hlt⟩
  · obtain ⟨hle, heq⟩ := Env.sub_checked hchecks haddr
    have hdepth' := Env.mul_checked hchecks hdepth
    rw [(Env.add_checked hchecks hnext).2] at hdepth'
    omega
  · simp only [pageSize] at *
    rw [Env.add_of_lt env (by omega)] at hnext
    obtain rfl := Except.ok.inj hnext
    rw [Env.mul_of_lt env (by omega)] at hdepth
    obtain rfl := Except.ok.inj hdepth
    rw [Env.sub_of_le env (by omega)] at haddr
    have := Except.ok.inj haddr
    omega

/-- **One stack page.** -/
theorem wp_stackPage (hfit : args.Fit env) (hoff : args.untypedMemoryOffset < 0xFFFF800000000000)
    (h : Placing root m₀ placed m) (hown : OwnTables root m) {i : Nat} (hi : i < args.stackPages)
    (a : BumpAllocator) :
    wp (stackPage env args (root * frameSize) a i)
      (fun _ m' => ∃ p, IsStackPage args i p ∧ Placing root m₀ (placed ++ [p]) m' ∧
        OwnTables root m')
      (fun _ m' => Untouched root m₀ m') m := by
  unfold stackPage
  refine wp_seq (BumpAllocator.wp_allocUserFrame a) ?_ ?_
  swap
  · rintro _ m' rfl
    exact h.toUntouched
  rintro ⟨r, a₁⟩ m₁ hr
  cases r with
  | none =>
    obtain rfl : m₁ = m := hr
    simp only [unwrap, wp_bind, wp_throw]
    exact h.toUntouched
  | some u =>
    have hc : Claimed .user m u.frame m₁ := hr
    have h₁ := h.claim hc
    have hu₁ := h₁.toUntouched
    simp only [unwrap, pure_bind, wp_bind]
    refine wp_orPanic (fun next hnext => ?_) (fun _ _ => hu₁)
    refine wp_orPanic (fun depth hdepth => ?_) (fun _ _ => hu₁)
    refine wp_orPanic (fun addr haddr => ?_) (fun _ _ => hu₁)
    refine wp_orPanic (fun v hv => ?_) (fun _ _ => hu₁)
    refine wp_orPanic (fun page hpage => ?_) (fun _ _ => hu₁)
    have hbase : page.base.addr = addr := by
      rw [Page.fromStartAddress_eq_ok hpage, VirtAddr.new_eq_ok hv]
    have haddr' := stack_addr hfit hi hnext hdepth haddr
    have hlow : lowHalf (page.key 4) := lowHalf_of_lt (by omega)
    refine wp_mono (h₁.wp_mapOwned (hown.claim hc) (h.pending hc) hlow (by decide) a₁) ?_
      (fun _ _ hu => hu)
    rintro ⟨r, a₂⟩ m₂ hr₂
    cases r with
    | error e => exact hr₂
    | ok w =>
      obtain ⟨h₂, hown₂⟩ := hr₂
      exact ⟨_, ⟨by rw [hbase]; exact haddr', rfl, rfl⟩, h₂, hown₂⟩

/-- **One page of the window.** -/
theorem wp_windowPage
    (hwin : args.untypedMemoryOffset + args.untypedMemoryLength < 0xFFFF800000000000)
    (h : Placing root m₀ placed m) {i : Nat} (hi : i < args.untypedMemoryLength / pageSize)
    (a : BumpAllocator) :
    wp (windowPage env args (root * frameSize) a i)
      (fun _ m' => ∃ p, IsWindowPage args i p ∧ Placing root m₀ (placed ++ [p]) m')
      (fun _ m' => Untouched root m₀ m') m := by
  have hu := h.toUntouched
  have hle : i * frameSize + args.untypedMemoryOffset < 0xFFFF800000000000 := by
    simp only [pageSize, frameSize] at *
    omega
  unfold windowPage
  simp only [wp_bind]
  refine wp_orPanic (fun start hstart => ?_) (fun _ _ => hu)
  refine wp_orPanic (fun base hbase => ?_) (fun _ _ => hu)
  refine wp_orPanic (fun frame hframe => ?_) (fun _ _ => hu)
  refine wp_orPanic (fun addr haddr => ?_) (fun _ _ => hu)
  refine wp_orPanic (fun v hv => ?_) (fun _ _ => hu)
  refine wp_orPanic (fun page hpage => ?_) (fun _ _ => hu)
  obtain ⟨hfb, hal⟩ := RawFrame.fromStartAddress_eq_ok hframe
  rw [Env.mul_of_lt env (by omega)] at hstart
  obtain rfl := Except.ok.inj hstart
  have hfbase : frame.base.addr = i * frameSize := by rw [hfb, PhysAddr.new_eq_ok hbase]
  rw [hfbase, Env.add_of_lt env (by omega)] at haddr
  obtain rfl := Except.ok.inj haddr
  have hpbase : page.base.addr = i * frameSize + args.untypedMemoryOffset := by
    rw [Page.fromStartAddress_eq_ok hpage, VirtAddr.new_eq_ok hv]
  have hlow : lowHalf (page.key 4) := lowHalf_of_lt (by omega)
  refine wp_mono (h.wp_mapWindow hal hlow a) ?_ (fun _ _ hu => hu)
  rintro ⟨r, a'⟩ m' hr
  cases r with
  | error e => exact hr
  | ok w =>
    refine ⟨_, ⟨?_, ?_, rfl, rfl⟩, hr⟩
    · rw [hpbase]
      simp only [pageSize, frameSize]
      omega
    · rw [hfbase, Nat.mul_comm]

end Pages

/-! ## All of it -/

/-- Page `p` belongs to the segment of a loadable header. -/
def InSegment (env : Env) (program : Program) (phdrs : List ProgramHeader) (p : Placement) : Prop :=
  ∃ ph ∈ phdrs, ph.type = ptLoad ∧ ∃ vmEnd, env.add ph.vaddr ph.memsz = .ok vmEnd ∧
    IsSegmentPage env program ph vmEnd p

/-- What has been placed for the headers `phdrs`, `stack` stack pages and `window` window pages:
pages of these three kinds, and all of them. -/
structure Laid (env : Env) (program : Program) (args : LoadArgs) (phdrs : List ProgramHeader)
    (stack window : Nat) (placed : List Placement) : Prop where
  sound : ∀ p ∈ placed, InSegment env program phdrs p ∨ (∃ i < stack, IsStackPage args i p) ∨
    ∃ i < window, IsWindowPage args i p
  segments : ∀ ph ∈ phdrs, ph.type = ptLoad → ∃ vmEnd, env.add ph.vaddr ph.memsz = .ok vmEnd ∧
    ∀ v, ph.vaddr ≤ v → v < vmEnd → ∃ p ∈ placed, IsSegmentPage env program ph vmEnd p ∧
      p.page.base.addr = v / pageSize * pageSize
  stack : ∀ i < stack, ∃ p ∈ placed, IsStackPage args i p
  window : ∀ i < window, ∃ p ∈ placed, IsWindowPage args i p

section Place

variable {env : Env} {program : Program} {args : LoadArgs} {phdrs : List ProgramHeader}
  {root stack window : Nat} {m₀ m : Machine} {placed : List Placement}

theorem Laid.nil : Laid env program args [] 0 0 [] where
  sound p hp := absurd hp (by simp)
  segments ph hph := absurd hph (by simp)
  stack i hi := absurd hi (by omega)
  window i hi := absurd hi (by omega)

theorem InSegment.mono {phdrs' : List ProgramHeader} {p : Placement}
    (h : InSegment env program phdrs p) (hsub : ∀ ph ∈ phdrs, ph ∈ phdrs') :
    InSegment env program phdrs' p := by
  obtain ⟨ph, hph, hrest⟩ := h
  exact ⟨ph, hsub ph hph, hrest⟩

/-- A loadable header, loaded. -/
theorem Laid.segment {ph : ProgramHeader} {ps : List Placement}
    (h : Laid env program args phdrs 0 0 placed) (hload : ph.type = ptLoad)
    (hps : SegmentLoaded env program ph ps) :
    Laid env program args (phdrs ++ [ph]) 0 0 (placed ++ ps) where
  sound p hp := by
    left
    rcases List.mem_append.mp hp with hp | hp
    · rcases h.sound p hp with hseg | ⟨i, hi, _⟩ | ⟨i, hi, _⟩
      · exact hseg.mono fun _ => List.mem_append_left _
      · exact absurd hi (by omega)
      · exact absurd hi (by omega)
    · obtain ⟨vmEnd, hvm, hpages⟩ := hps
      exact ⟨ph, List.mem_append_right _ List.mem_cons_self, hload, vmEnd, hvm, hpages.sound p hp⟩
  segments q hq hqload := by
    rcases List.mem_append.mp hq with hq | hq
    · obtain ⟨vmEnd, hvm, hall⟩ := h.segments q hq hqload
      refine ⟨vmEnd, hvm, fun v hge hlt => ?_⟩
      obtain ⟨p, hp, hrest⟩ := hall v hge hlt
      exact ⟨p, List.mem_append_left _ hp, hrest⟩
    · obtain rfl := List.mem_singleton.mp hq
      obtain ⟨vmEnd, hvm, hpages⟩ := hps
      refine ⟨vmEnd, hvm, fun v hge hlt => ?_⟩
      obtain ⟨p, hp, hbase⟩ := hpages.covers v hge hlt
      exact ⟨p, List.mem_append_right _ hp, hpages.sound p hp, hbase⟩
  stack i hi := absurd hi (by omega)
  window i hi := absurd hi (by omega)

/-- A header that is not loadable adds nothing. -/
theorem Laid.skip {ph : ProgramHeader} (h : Laid env program args phdrs 0 0 placed)
    (hload : ph.type ≠ ptLoad) : Laid env program args (phdrs ++ [ph]) 0 0 placed where
  sound p hp := (h.sound p hp).imp_left fun hseg => hseg.mono fun _ => List.mem_append_left _
  segments q hq hqload := by
    rcases List.mem_append.mp hq with hq | hq
    · exact h.segments q hq hqload
    · obtain rfl := List.mem_singleton.mp hq
      exact absurd hqload hload
  stack := h.stack
  window := h.window

/-- Placing more keeps the segments. -/
theorem Laid.segments_append (h : Laid env program args phdrs stack window placed)
    (p : Placement) : ∀ ph ∈ phdrs, ph.type = ptLoad →
    ∃ vmEnd, env.add ph.vaddr ph.memsz = .ok vmEnd ∧ ∀ v, ph.vaddr ≤ v → v < vmEnd →
      ∃ q ∈ placed ++ [p], IsSegmentPage env program ph vmEnd q ∧
        q.page.base.addr = v / pageSize * pageSize := by
  intro ph hph hload
  obtain ⟨vmEnd, hvm, hall⟩ := h.segments ph hph hload
  refine ⟨vmEnd, hvm, fun v hge hlt => ?_⟩
  obtain ⟨q, hq, hrest⟩ := hall v hge hlt
  exact ⟨q, List.mem_append_left _ hq, hrest⟩

/-- A family of pages counted up to `n`, and one more. -/
theorem counted_append {P : Nat → Placement → Prop} {n : Nat} {p : Placement}
    (h : ∀ i < n, ∃ q ∈ placed, P i q) (hp : P n p) :
    ∀ i < n + 1, ∃ q ∈ placed ++ [p], P i q := by
  intro i hi
  by_cases hn : i = n
  · exact ⟨p, List.mem_append_right _ List.mem_cons_self, hn ▸ hp⟩
  · obtain ⟨q, hq, hPq⟩ := h i (by omega)
    exact ⟨q, List.mem_append_left _ hq, hPq⟩

theorem Laid.stackPage {p : Placement} (h : Laid env program args phdrs stack 0 placed)
    (hp : IsStackPage args stack p) :
    Laid env program args phdrs (stack + 1) 0 (placed ++ [p]) where
  sound q hq := by
    rcases List.mem_append.mp hq with hq | hq
    · rcases h.sound q hq with hseg | ⟨i, hi, hst⟩ | ⟨i, hi, _⟩
      · exact Or.inl hseg
      · exact Or.inr (Or.inl ⟨i, by omega, hst⟩)
      · exact absurd hi (by omega)
    · obtain rfl := List.mem_singleton.mp hq
      exact Or.inr (Or.inl ⟨stack, by omega, hp⟩)
  segments := h.segments_append p
  stack := counted_append h.stack hp
  window i hi := absurd hi (by omega)

theorem Laid.windowPage {p : Placement} (h : Laid env program args phdrs stack window placed)
    (hp : IsWindowPage args window p) :
    Laid env program args phdrs stack (window + 1) (placed ++ [p]) where
  sound q hq := by
    rcases List.mem_append.mp hq with hq | hq
    · rcases h.sound q hq with hseg | hst | ⟨i, hi, hw⟩
      · exact Or.inl hseg
      · exact Or.inr (Or.inl hst)
      · exact Or.inr (Or.inr ⟨i, by omega, hw⟩)
    · obtain rfl := List.mem_singleton.mp hq
      exact Or.inr (Or.inr ⟨window, by omega, hp⟩)
  segments := h.segments_append p
  stack i hi := by
    obtain ⟨q, hq, hst⟩ := h.stack i hi
    exact ⟨q, List.mem_append_left _ hq, hst⟩
  window := counted_append h.window hp

/-- **The three loops**: the segments, the stack and the window, and nothing else. -/
theorem wp_place (hfit : args.Fit env)
    (hwin : args.untypedMemoryOffset + args.untypedMemoryLength < 0xFFFF800000000000)
    (h : Placing root m₀ [] m) (hown : OwnTables root m) (a : BumpAllocator) :
    wp (place env program args phdrs (root * frameSize) a)
      (fun _ m' => ∃ placed, Laid env program args phdrs args.stackPages
        (args.untypedMemoryLength / pageSize) placed ∧ Placing root m₀ placed m')
      (fun _ m' => Untouched root m₀ m') m := by
  unfold place
  refine wp_seq (wp_foldlM (fun done _ m' => ∃ placed, Laid env program args done 0 0 placed ∧
    Placing root m₀ placed m' ∧ OwnTables root m') _ phdrs ?_ ⟨[], Laid.nil, h, hown⟩) ?_
    (fun _ _ hu => hu)
  · rintro done ph rest a m₁ _ ⟨placed, hlaid, h₁, hown₁⟩
    unfold loadSegment
    rw [wp_ite]
    refine ⟨fun hload => ?_, fun hload => ⟨placed, hlaid.skip hload, h₁, hown₁⟩⟩
    refine wp_mono (wp_segmentLoad h₁ hown₁ a) ?_ (fun _ _ hu => hu)
    rintro _ m₂ ⟨ps, hps, h₂, hown₂⟩
    exact ⟨placed ++ ps, hlaid.segment hload hps, h₂, hown₂⟩
  rintro a₁ m₁ ⟨placed₁, hlaid₁, h₁, hown₁⟩
  refine wp_seq (wp_foldlM_range (fun i _ m' => ∃ placed, Laid env program args phdrs i 0 placed ∧
    Placing root m₀ placed m' ∧ OwnTables root m') _ args.stackPages ?_
    ⟨placed₁, hlaid₁, h₁, hown₁⟩) ?_ (fun _ _ hu => hu)
  · rintro i a m₂ hi ⟨placed, hlaid, h₂, hown₂⟩
    refine wp_mono (wp_stackPage hfit (by omega) h₂ hown₂ hi a) ?_ (fun _ _ hu => hu)
    rintro _ m₃ ⟨p, hp, h₃, hown₃⟩
    exact ⟨placed ++ [p], hlaid.stackPage hp, h₃, hown₃⟩
  rintro a₂ m₂ ⟨placed₂, hlaid₂, h₂, -⟩
  refine wp_seq (wp_foldlM_range (fun i _ m' => ∃ placed,
    Laid env program args phdrs args.stackPages i placed ∧ Placing root m₀ placed m') _
    (args.untypedMemoryLength / pageSize) ?_ ⟨placed₂, hlaid₂, h₂⟩) (fun _ _ hm => hm)
    (fun _ _ hu => hu)
  rintro i a m₃ hi ⟨placed, hlaid, h₃⟩
  refine wp_mono (wp_windowPage hwin h₃ hi a) ?_ (fun _ _ hu => hu)
  rintro _ m₄ ⟨p, hp, h₄⟩
  exact ⟨placed ++ [p], hlaid.windowPage hp, h₄⟩

end Place

end Harmony
