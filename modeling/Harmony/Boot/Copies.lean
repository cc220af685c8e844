import Harmony.Boot.Cost
import Harmony.Lib.Log

/-!
# What a segment copies

`Segment::load` (`arch/x86_64/bootup.rs`) with a log of the frames it takes, the subtractions
`file_range.end - fcurrent` and the copies it makes. Without the log it is the loader
(`segmentLoadLogged_erases`).

The bounds of the copies rest on `file_range.end <= program.len()`. In the `release` profile
`p_offset + p_filesz` wraps, and then the end of the file range lies below its start: the first
subtraction underflows, and the copy reads from `p_offset` on, wherever that is.

* `wp_segmentPageLogged`: all that one turn can write to the log.
* `segmentLoop_fuel`: the loop ends by itself.
* `FirstPage`: what the first page needs, of the tables and the frames that are there, to come as
  far as the subtraction; `Growable.wp_firstTurn` shows that it is exactly that.
* `segment_copies_inside_iff`: the copies stay in the image and in the frame, unless the file range
  wraps, passes the checks and the first page gets what it needs.
-/

namespace Harmony

open Lib Logged

/-- What happens while a segment is loaded. -/
inductive LoadEvent where
  /-- `alloc_user_frame` returned the frame. -/
  | allocated (f : RawFrame)
  /-- `a - b`, for the bytes of the file that are left. -/
  | subtracted (a b : Nat)
  /-- `core::ptr::copy`: from an index of the image, to a physical address. -/
  | copied (src dst count : Nat)
  deriving DecidableEq

/-! ## The loader with a log -/

section Segment

variable (env : Env) (l4 : Nat) (program : Program) (ph : ProgramHeader)

/-- `fillPage`, with a log. -/
def fillPageLogged (page vcurrent fcurrent count : Nat) : Logged Panic Machine LoadEvent Unit := do
  lift (modify fun m => m.store page pageSize fun _ => 0)
  if 0 < count then
    tell (.copied fcurrent (page + vcurrent % pageSize) count)
    let bytes ← lift (orPanic (program.copyFrom fcurrent count))
    lift (modify fun m => m.store (page + vcurrent % pageSize) count bytes)

/-- `segmentPage`, with a log. -/
def segmentPageLogged (fileEnd vcurrent fcurrent : Nat) (a : BumpAllocator) :
    Logged Panic Machine LoadEvent (Nat × Nat × BumpAllocator) := do
  let (r, a) ← lift (a.allocUserFrame env)
  let user ← lift (unwrap "alloc_user_frame" r)
  let frame := user.intoRaw
  tell (.allocated frame)
  let addr ← lift (orPanic (VirtAddr.new vcurrent))
  let page ← lift (orPanic (Page.containingAddress addr))
  lift (assert (ph.flags &&& pfR != 0) "flags & PF_R != 0")
  let (r, a) ← lift (mapTo env page frame (segmentFlags ph) userParents l4 a)
  lift (unwrapOk "map_to" r)
  let offsetPage ← lift (orPanic (frame.ptr env))
  tell (.subtracted fileEnd fcurrent)
  let left ← lift (orPanic (env.sub fileEnd fcurrent))
  let count := min left (pageSize - vcurrent % pageSize)
  fillPageLogged program offsetPage vcurrent fcurrent count
  let vcurrent ← lift (orPanic (env.add vcurrent (pageSize - vcurrent % pageSize)))
  let fcurrent ← lift (orPanic (env.add fcurrent count))
  pure (vcurrent, fcurrent, a)

/-- `segmentLoop`, with a log. -/
def segmentLoopLogged (vmEnd fileEnd : Nat) :
    Nat → Nat → Nat → BumpAllocator → Logged Panic Machine LoadEvent BumpAllocator
  | 0, _, _, a => pure a
  | left + 1, vcurrent, fcurrent, a =>
    if vcurrent < vmEnd then do
      let (vcurrent, fcurrent, a) ← segmentPageLogged env l4 program ph fileEnd vcurrent fcurrent a
      segmentLoopLogged vmEnd fileEnd left vcurrent fcurrent a
    else pure a

/-- `segmentLoad`, with a log. -/
def segmentLoadLogged (a : BumpAllocator) : Logged Panic Machine LoadEvent BumpAllocator := do
  let vmEnd ← lift (orPanic (env.add ph.vaddr ph.memsz))
  let fileEnd ← lift (orPanic (env.add ph.offset ph.filesz))
  lift (assert (vmEnd ≤ 0xFFFF800000000000) "vm_range.end <= 0xFFFF800000000000")
  lift (assert (fileEnd ≤ program.len) "file_range.end <= self.program.len()")
  lift (assert (ph.memsz ≥ ph.filesz) "self.header.p_memsz >= self.header.p_filesz")
  segmentLoopLogged env l4 program ph vmEnd fileEnd (vmEnd - ph.vaddr) ph.vaddr ph.offset a

/-- The events of a load, newest first, whether it returns or panics. -/
def segmentLog (a : BumpAllocator) (m : Machine) : List LoadEvent :=
  (finalState (segmentLoadLogged env l4 program ph a (m, []))).2

end Segment

/-! ## Without the log -/

section Erase

variable {env : Env} {l4 : Nat} {program : Program} {ph : ProgramHeader}

theorem fillPageLogged_erases (page vcurrent fcurrent count : Nat) :
    Erases (fillPageLogged program page vcurrent fcurrent count)
      (fillPage program page vcurrent fcurrent count) := by
  refine Erases.bind (Erases.lift _) fun _ => Erases.ite ?_ (Erases.pure _)
  exact Erases.tell _ (Erases.bind (Erases.lift _) fun _ => Erases.lift _)

theorem segmentPageLogged_erases (fileEnd vcurrent fcurrent : Nat) (a : BumpAllocator) :
    Erases (segmentPageLogged env l4 program ph fileEnd vcurrent fcurrent a)
      (segmentPage env l4 program ph fileEnd vcurrent fcurrent a) := by
  refine Erases.bind (Erases.lift _) fun ⟨r, a⟩ => ?_
  refine Erases.bind (Erases.lift _) fun user => ?_
  refine Erases.tell _ (Erases.bind (Erases.lift _) fun addr => ?_)
  refine Erases.bind (Erases.lift _) fun page => ?_
  refine Erases.bind (Erases.lift _) fun _ => ?_
  refine Erases.bind (Erases.lift _) fun ⟨r, a⟩ => ?_
  refine Erases.bind (Erases.lift _) fun _ => ?_
  refine Erases.bind (Erases.lift _) fun offsetPage => ?_
  refine Erases.tell _ (Erases.bind (Erases.lift _) fun left => ?_)
  refine Erases.bind (fillPageLogged_erases _ _ _ _) fun _ => ?_
  refine Erases.bind (Erases.lift _) fun _ => ?_
  exact Erases.bind (Erases.lift _) fun _ => Erases.pure _

theorem segmentLoopLogged_erases (vmEnd fileEnd left vcurrent fcurrent : Nat) (a : BumpAllocator) :
    Erases (segmentLoopLogged env l4 program ph vmEnd fileEnd left vcurrent fcurrent a)
      (segmentLoop env l4 program ph vmEnd fileEnd left vcurrent fcurrent a) := by
  induction left generalizing vcurrent fcurrent a with
  | zero => exact Erases.pure a
  | succ left ih =>
    unfold segmentLoopLogged segmentLoop
    refine Erases.ite ?_ (Erases.pure a)
    exact Erases.bind (segmentPageLogged_erases _ _ _ _) fun r => ih r.1 r.2.1 r.2.2

/-- **Without its log the logged loader is the loader.** -/
theorem segmentLoadLogged_erases (a : BumpAllocator) :
    Erases (segmentLoadLogged env l4 program ph a) (segmentLoad env l4 program ph a) := by
  refine Erases.bind (Erases.lift _) fun vmEnd => ?_
  refine Erases.bind (Erases.lift _) fun fileEnd => ?_
  refine Erases.bind (Erases.lift _) fun _ => ?_
  refine Erases.bind (Erases.lift _) fun _ => ?_
  exact Erases.bind (Erases.lift _) fun _ => segmentLoopLogged_erases _ _ _ _ _ _

theorem fillPageLogged_keepsLog (page vcurrent fcurrent count : Nat) :
    KeepsLog (fillPageLogged program page vcurrent fcurrent count) := by
  refine .bind (.lift _) fun _ => .ite (.bind (.tell _) fun _ => ?_) (.pure _)
  exact .bind (.lift _) fun _ => .lift _

theorem segmentPageLogged_keepsLog (fileEnd vcurrent fcurrent : Nat) (a : BumpAllocator) :
    KeepsLog (segmentPageLogged env l4 program ph fileEnd vcurrent fcurrent a) := by
  refine .bind (.lift _) fun ⟨r, a⟩ => .bind (.lift _) fun user => .bind (.tell _) fun _ => ?_
  refine .bind (.lift _) fun addr => .bind (.lift _) fun page => .bind (.lift _) fun _ => ?_
  refine .bind (.lift _) fun ⟨r, a⟩ => .bind (.lift _) fun _ => .bind (.lift _) fun _ => ?_
  refine .bind (.tell _) fun _ => .bind (.lift _) fun left => ?_
  exact .bind (fillPageLogged_keepsLog _ _ _ _) fun _ => .bind (.lift _) fun _ =>
    .bind (.lift _) fun _ => .pure _

theorem segmentLoopLogged_keepsLog (vmEnd fileEnd left vcurrent fcurrent : Nat)
    (a : BumpAllocator) :
    KeepsLog (segmentLoopLogged env l4 program ph vmEnd fileEnd left vcurrent fcurrent a) := by
  induction left generalizing vcurrent fcurrent a with
  | zero => exact .pure a
  | succ left ih =>
    unfold segmentLoopLogged
    exact .ite (.bind (segmentPageLogged_keepsLog _ _ _ _) fun r => ih r.1 r.2.1 r.2.2) (.pure a)

end Erase

/-! ## What a turn writes to the log -/

/-- The log in the course of a turn: nothing yet, the frame, the subtraction, the copy. -/
inductive Turn (env : Env) (fileEnd vcurrent fcurrent : Nat) (log : List LoadEvent) :
    List LoadEvent → Prop
  | begun : Turn env fileEnd vcurrent fcurrent log log
  | allocated (f : RawFrame) : Turn env fileEnd vcurrent fcurrent log (.allocated f :: log)
  | subtracted (f : RawFrame) :
      Turn env fileEnd vcurrent fcurrent log (.subtracted fileEnd fcurrent :: .allocated f :: log)
  | copied (f : RawFrame) (left : Nat) (h : env.sub fileEnd fcurrent = .ok left) :
      Turn env fileEnd vcurrent fcurrent log
        (.copied fcurrent (f.base.addr + vcurrent % pageSize)
          (min left (pageSize - vcurrent % pageSize)) ::
            .subtracted fileEnd fcurrent :: .allocated f :: log)

/-- What a turn that comes to its end leaves: the subtraction was made, and the cursors moved. -/
structure Turned (env : Env) (fileEnd vcurrent fcurrent : Nat) (log : List LoadEvent)
    (r : Nat × Nat × BumpAllocator) (log' : List LoadEvent) : Prop where
  turn : Turn env fileEnd vcurrent fcurrent log log'
  subtracted : .subtracted fileEnd fcurrent ∈ log'
  cursors : ∃ left, env.sub fileEnd fcurrent = .ok left ∧
    env.add vcurrent (pageSize - vcurrent % pageSize) = .ok r.1 ∧
    env.add fcurrent (min left (pageSize - vcurrent % pageSize)) = .ok r.2.1

section Log

variable {env : Env} {l4 : Nat} {program : Program} {ph : ProgramHeader} {m : Machine}
  {log : List LoadEvent}

/-- **One turn.** -/
theorem wp_segmentPageLogged (fileEnd vcurrent fcurrent : Nat) (a : BumpAllocator) :
    wp (segmentPageLogged env l4 program ph fileEnd vcurrent fcurrent a)
      (fun r s => Turned env fileEnd vcurrent fcurrent log r s.2)
      (fun _ s => Turn env fileEnd vcurrent fcurrent log s.2) (m, log) := by
  unfold segmentPageLogged
  refine wp_lift_bind (fun ⟨r, a⟩ m _ => ?_) fun _ _ => Turn.begun
  refine wp_lift_bind (fun user m _ => ?_) fun _ _ => Turn.begun
  rw [wp_bind, wp_tell]
  refine wp_lift_bind (fun addr m _ => ?_) fun _ _ => Turn.allocated _
  refine wp_lift_bind (fun page m _ => ?_) fun _ _ => Turn.allocated _
  refine wp_lift_bind (fun _ m _ => ?_) fun _ _ => Turn.allocated _
  refine wp_lift_bind (fun ⟨r, a⟩ m _ => ?_) fun _ _ => Turn.allocated _
  refine wp_lift_bind (fun _ m _ => ?_) fun _ _ => Turn.allocated _
  refine wp_lift_bind (fun offsetPage m hptr => ?_) fun _ _ => Turn.allocated _
  obtain rfl := RawFrame.ptr_eq_ok (orPanic_eq_ok hptr).1
  rw [wp_bind, wp_tell]
  refine wp_lift_bind (fun left m hleft => ?_) fun _ _ => Turn.subtracted _
  have hsub := (orPanic_eq_ok hleft).1
  rw [wp_bind]
  unfold fillPageLogged
  refine wp_lift_bind (fun _ m _ => ?_) fun _ _ => Turn.subtracted _
  by_cases hcount : 0 < min left (pageSize - vcurrent % pageSize)
  · rw [if_pos hcount, wp_bind, wp_tell]
    refine wp_lift_bind (fun bytes m _ => ?_) fun _ _ => Turn.copied _ left hsub
    rw [wp_lift, wp_modify]
    refine wp_lift_bind (fun v m hv => ?_) fun _ _ => Turn.copied _ left hsub
    refine wp_lift_bind (fun f m hf => ?_) fun _ _ => Turn.copied _ left hsub
    exact ⟨Turn.copied _ left hsub, by simp, left, hsub, (orPanic_eq_ok hv).1, (orPanic_eq_ok hf).1⟩
  · rw [if_neg hcount, wp_pure]
    refine wp_lift_bind (fun v m hv => ?_) fun _ _ => Turn.subtracted _
    refine wp_lift_bind (fun f m hf => ?_) fun _ _ => Turn.subtracted _
    exact ⟨Turn.subtracted _, by simp, left, hsub, (orPanic_eq_ok hv).1, (orPanic_eq_ok hf).1⟩

/-- What holds at the start of the loop, and of every turn on the way to its end, holds of the
log. -/
theorem wp_segmentLoopLogged {vmEnd fileEnd : Nat} (I : Nat → Nat → List LoadEvent → Prop)
    (P : List LoadEvent → Prop) (hP : ∀ {v f log}, I v f log → P log)
    (hturn : ∀ {v f log log'}, I v f log → v < vmEnd → Turn env fileEnd v f log log' → P log')
    (hnext : ∀ {v f log r log'}, I v f log → v < vmEnd → Turned env fileEnd v f log r log' →
      I r.1 r.2.1 log')
    (left : Nat) {vcurrent fcurrent : Nat} (a : BumpAllocator) (h : I vcurrent fcurrent log) :
    wp (segmentLoopLogged env l4 program ph vmEnd fileEnd left vcurrent fcurrent a)
      (fun _ s => P s.2) (fun _ s => P s.2) (m, log) := by
  induction left generalizing vcurrent fcurrent a m log with
  | zero => exact hP h
  | succ left ih =>
    unfold segmentLoopLogged
    by_cases hv : vcurrent < vmEnd
    · rw [if_pos hv]
      refine wp_seq (wp_segmentPageLogged fileEnd vcurrent fcurrent a) ?_ ?_
      · rintro ⟨v, f, a⟩ ⟨m', log'⟩ ht
        exact ih a (hnext h hv ht)
      · exact fun _ s ht => hturn h hv ht
    · rw [if_neg hv]
      exact hP h

end Log

/-! ## Termination -/

section Fuel

variable {env : Env} {l4 : Nat} {program : Program} {ph : ProgramHeader}

/-- A turn brings the cursor forward. -/
theorem segmentPage_advances {fileEnd v f : Nat} {a : BumpAllocator} {m m' : Machine}
    {r : Nat × Nat × BumpAllocator} (hv : v ≤ 0xFFFF800000000000)
    (h : segmentPage env l4 program ph fileEnd v f a m = .ok r m') : v < r.1 := by
  obtain ⟨log, hlog⟩ := (segmentPageLogged_erases fileEnd v f a).eq_ok [] h
  obtain ⟨left, _, hadd, _⟩ := (wp_ok (wp_segmentPageLogged fileEnd v f a) hlog).cursors
  have hrest : 0 < pageSize - v % pageSize :=
    Nat.sub_pos_of_lt (Nat.mod_lt _ (by decide))
  have hle : pageSize - v % pageSize ≤ pageSize := Nat.sub_le _ _
  simp only [pageSize] at hle
  rcases Env.add_eq_ok hadd with ⟨_, heq⟩ | ⟨_, hge, _⟩
  · omega
  · simp only [pageSize] at hge
    omega

/-- **The loop ends by itself**: a larger bound on the turns changes nothing. -/
theorem segmentLoop_fuel {vmEnd fileEnd : Nat} (hend : vmEnd ≤ 0xFFFF800000000000) (left more : Nat)
    {v f : Nat} (a : BumpAllocator) (hleft : vmEnd ≤ v + left) :
    segmentLoop env l4 program ph vmEnd fileEnd (left + more) v f a =
      segmentLoop env l4 program ph vmEnd fileEnd left v f a := by
  induction left generalizing v f a with
  | zero =>
    cases more with
    | zero => rfl
    | succ more =>
      rw [Nat.zero_add]
      unfold segmentLoop
      rw [if_neg (by omega)]
  | succ left ih =>
    rw [Nat.add_right_comm]
    unfold segmentLoop
    by_cases hv : v < vmEnd
    · rw [if_pos hv, if_pos hv]
      funext m
      cases hpage : segmentPage env l4 program ph fileEnd v f a m with
      | error p m' => rw [bind_of_eq_error hpage, bind_of_eq_error hpage]
      | ok r m' =>
        have hlt := segmentPage_advances (by omega) hpage
        rw [bind_of_eq_ok hpage, bind_of_eq_ok hpage]
        exact congrFun (ih r.2.2 (by omega)) m'
    · rw [if_neg hv, if_neg hv]

end Fuel

/-- `segmentLoad` with `more` turns allowed than it needs. -/
def segmentLoadWithin (env : Env) (l4 : Nat) (program : Program) (ph : ProgramHeader) (more : Nat)
    (a : BumpAllocator) : KM BumpAllocator := do
  let vmEnd ← orPanic (env.add ph.vaddr ph.memsz)
  let fileEnd ← orPanic (env.add ph.offset ph.filesz)
  assert (vmEnd ≤ 0xFFFF800000000000) "vm_range.end <= 0xFFFF800000000000"
  assert (fileEnd ≤ program.len) "file_range.end <= self.program.len()"
  assert (ph.memsz ≥ ph.filesz) "self.header.p_memsz >= self.header.p_filesz"
  segmentLoop env l4 program ph vmEnd fileEnd (vmEnd - ph.vaddr + more) ph.vaddr ph.offset a

theorem segmentLoadWithin_eq (env : Env) (l4 : Nat) (program : Program) (ph : ProgramHeader)
    (more : Nat) (a : BumpAllocator) :
    segmentLoadWithin env l4 program ph more a = segmentLoad env l4 program ph a := by
  unfold segmentLoadWithin segmentLoad
  refine bind_congr fun vmEnd => bind_congr fun fileEnd => ?_
  by_cases hend : vmEnd ≤ 0xFFFF800000000000
  · refine bind_congr fun _ => bind_congr fun _ => bind_congr fun _ => ?_
    exact segmentLoop_fuel hend _ more a (by omega)
  · -- the assertion fails, whatever follows
    rw [decide_eq_false hend]
    rfl

/-! ## Where the copies go -/

/-- The frame that was returned last. -/
def lastFrame : List LoadEvent → Option RawFrame
  | [] => none
  | .allocated f :: _ => some f
  | .subtracted _ _ :: log => lastFrame log
  | .copied _ _ _ :: log => lastFrame log

/-- A byte read in the file range and in the image, and written in the frame. -/
structure ByteInside (program : Program) (ph : ProgramHeader) (f : RawFrame) (src dst : Nat) :
    Prop where
  offset_le : ph.offset ≤ src
  lt_end : src < ph.offset + ph.filesz
  lt_len : src < program.len
  frame_le : f.base.addr ≤ dst
  lt_frame : dst < f.base.addr + pageSize

/-- **The law**: no subtraction underflows, and every copied byte is read in the image and written
in the frame just returned. -/
def CopiesInside (program : Program) (ph : ProgramHeader) : List LoadEvent → Prop
  | [] => True
  | .allocated _ :: log => CopiesInside program ph log
  | .subtracted a b :: log => b ≤ a ∧ CopiesInside program ph log
  | .copied src dst count :: log =>
    (∃ f, lastFrame log = some f ∧
      ∀ i, i < count → ByteInside program ph f (src + i) (dst + i)) ∧ CopiesInside program ph log

/-- Nothing but frames so far. -/
def OnlyFrames (log : List LoadEvent) : Prop := ∀ e ∈ log, ∃ f, e = .allocated f

section Law

variable {env : Env} {program : Program} {ph : ProgramHeader} {fileEnd v f : Nat}
  {log log' : List LoadEvent}

theorem CopiesInside.of_onlyFrames (h : OnlyFrames log) : CopiesInside program ph log := by
  induction log with
  | nil => trivial
  | cons e log ih =>
    obtain ⟨f, rfl⟩ := h e List.mem_cons_self
    exact ih fun e he => h e (List.mem_cons_of_mem _ he)

theorem CopiesInside.le_of_mem (h : CopiesInside program ph log) {a b : Nat}
    (hmem : .subtracted a b ∈ log) : b ≤ a := by
  induction log with
  | nil => cases hmem
  | cons e log ih =>
    rcases List.mem_cons.mp hmem with rfl | hold
    · exact h.1
    · cases e with
      | allocated f => exact ih h hold
      | subtracted a' b' => exact ih h.2 hold
      | copied src dst count => exact ih h.2 hold

theorem Turn.mem (h : Turn env fileEnd v f log log') {e : LoadEvent} (he : e ∈ log) : e ∈ log' := by
  cases h with
  | begun => exact he
  | allocated g => exact List.mem_cons_of_mem _ he
  | subtracted g => exact List.mem_cons_of_mem _ (List.mem_cons_of_mem _ he)
  | copied g left hsub =>
    exact List.mem_cons_of_mem _ (List.mem_cons_of_mem _ (List.mem_cons_of_mem _ he))

/-- A turn from a cursor in the file range keeps the law. -/
theorem CopiesInside.turn (hend : fileEnd = ph.offset + ph.filesz) (hlen : fileEnd ≤ program.len)
    (hlo : ph.offset ≤ f) (hhi : f ≤ fileEnd) (h : CopiesInside program ph log)
    (ht : Turn env fileEnd v f log log') : CopiesInside program ph log' := by
  cases ht with
  | begun => exact h
  | allocated g => exact h
  | subtracted g => exact ⟨hhi, h⟩
  | copied g left hsub =>
    rw [Env.sub_of_le env hhi] at hsub
    obtain rfl := Except.ok.inj hsub
    refine ⟨⟨g, rfl, fun i hi => ?_⟩, hhi, h⟩
    have hmin := lt_min_iff.mp hi
    have hmod : v % pageSize < pageSize := Nat.mod_lt _ (by decide)
    constructor <;> omega

/-- A turn moves the cursor inside the file range. -/
theorem Turned.cursor (hend : fileEnd < 2 ^ 64) (hhi : f ≤ fileEnd) {r : Nat × Nat × BumpAllocator}
    (h : Turned env fileEnd v f log r log') : f ≤ r.2.1 ∧ r.2.1 ≤ fileEnd := by
  obtain ⟨left, hsub, _, hadd⟩ := h.cursors
  rw [Env.sub_of_le env hhi] at hsub
  obtain rfl := Except.ok.inj hsub
  have hle : min (fileEnd - f) (pageSize - v % pageSize) ≤ fileEnd - f := Nat.min_le_left _ _
  rw [Env.add_of_lt env (by omega)] at hadd
  have heq := Except.ok.inj hadd
  omega

/-- The state of the log after the file range has wrapped. -/
theorem Turn.wrapped {start : Nat} (ht : Turn env fileEnd v f log log')
    (h : (f = start ∧ OnlyFrames log) ∨ .subtracted fileEnd start ∈ log) :
    OnlyFrames log' ∨ .subtracted fileEnd start ∈ log' := by
  rcases h with ⟨rfl, honly⟩ | hmem
  · cases ht with
    | begun => exact Or.inl honly
    | allocated g => exact Or.inl (List.forall_mem_cons.mpr ⟨⟨g, rfl⟩, honly⟩)
    | subtracted g => exact Or.inr (by simp)
    | copied g left hsub => exact Or.inr (by simp)
  · exact Or.inr (ht.mem hmem)

end Law

section Load

variable {env : Env} {l4 : Nat} {program : Program} {ph : ProgramHeader}

/-- The log of a load is that of its loop, from checked ranges, or empty. -/
theorem segmentLog_of_loop {P : List LoadEvent → Prop} (a : BumpAllocator) (m : Machine)
    (hnil : P [])
    (hloop : ∀ vmEnd fileEnd m', env.add ph.offset ph.filesz = .ok fileEnd →
      fileEnd ≤ program.len →
      wp (segmentLoopLogged env l4 program ph vmEnd fileEnd (vmEnd - ph.vaddr) ph.vaddr ph.offset a)
        (fun _ s => P s.2) (fun _ s => P s.2) (m', [])) :
    P (segmentLog env l4 program ph a m) := by
  refine wp_finalState (P := fun s : Machine × List LoadEvent => P s.2) ?_
  unfold segmentLoadLogged
  refine wp_lift_bind (fun vmEnd m hvm => ?_) fun _ _ => hnil
  refine wp_lift_bind (fun fileEnd m hfile => ?_) fun _ _ => hnil
  refine wp_lift_bind (fun _ m _ => ?_) fun _ _ => hnil
  refine wp_lift_bind (fun _ m hlen => ?_) fun _ _ => hnil
  refine wp_lift_bind (fun _ m _ => ?_) fun _ _ => hnil
  exact hloop vmEnd fileEnd m (orPanic_eq_ok hfile).1 (by simpa using (assert_eq_ok hlen).1)

/-- A file range that does not wrap. -/
theorem segmentLog_inside (hfits : ph.offset + ph.filesz < 2 ^ 64) (a : BumpAllocator)
    (m : Machine) : CopiesInside program ph (segmentLog env l4 program ph a m) := by
  refine segmentLog_of_loop a m trivial fun vmEnd fileEnd m' hfile hlen => ?_
  rw [Env.add_of_lt env hfits] at hfile
  have hend : fileEnd = ph.offset + ph.filesz := (Except.ok.inj hfile).symm
  refine wp_segmentLoopLogged
    (fun _ f log => (ph.offset ≤ f ∧ f ≤ fileEnd) ∧ CopiesInside program ph log) _
    (fun h => h.2) (fun h _ ht => h.2.turn hend hlen h.1.1 h.1.2 ht) ?_ _ a ?_
  · intro v f log r log' h _ ht
    obtain ⟨hlo, hhi⟩ := ht.cursor (by omega) h.1.2
    exact ⟨⟨Nat.le_trans h.1.1 hlo, hhi⟩, h.2.turn hend hlen h.1.1 h.1.2 ht.turn⟩
  · exact ⟨⟨Nat.le_refl _, by omega⟩, trivial⟩

/-- A file range that wraps: the load stops before the first subtraction, or makes it and
underflows. -/
theorem segmentLog_wrapped (env : Env) (l4 : Nat) (program : Program)
    (hwraps : 2 ^ 64 ≤ ph.offset + ph.filesz) (a : BumpAllocator)
    (m : Machine) : OnlyFrames (segmentLog env l4 program ph a m) ∨
      ∃ fileEnd, fileEnd < ph.offset ∧
        .subtracted fileEnd ph.offset ∈ segmentLog env l4 program ph a m := by
  have hnil : OnlyFrames [] := fun e he => absurd he List.not_mem_nil
  refine segmentLog_of_loop (P := fun log => OnlyFrames log ∨
    ∃ fileEnd, fileEnd < ph.offset ∧ .subtracted fileEnd ph.offset ∈ log) a m (Or.inl hnil) ?_
  intro vmEnd fileEnd m' hfile hlen
  have hlt : fileEnd < ph.offset := by
    have hsz := ph.filesz_lt
    have hoff := ph.offset_lt
    rcases Env.add_eq_ok hfile with ⟨hno, _⟩ | ⟨_, _, heq⟩
    · omega
    · omega
  have hpost : ∀ {log : List LoadEvent},
      OnlyFrames log ∨ .subtracted fileEnd ph.offset ∈ log → OnlyFrames log ∨
        ∃ fileEnd, fileEnd < ph.offset ∧ .subtracted fileEnd ph.offset ∈ log :=
    fun h => h.imp_right fun hmem => ⟨fileEnd, hlt, hmem⟩
  refine wp_segmentLoopLogged
    (fun _ f log => (f = ph.offset ∧ OnlyFrames log) ∨ .subtracted fileEnd ph.offset ∈ log) _
    (fun h => hpost (h.imp_left And.right)) (fun h _ ht => hpost (ht.wrapped h)) ?_ _ a ?_
  · intro v f log r log' h _ ht
    rcases h with ⟨rfl, _⟩ | hmem
    · exact Or.inr ht.subtracted
    · exact Or.inr (ht.turn.mem hmem)
  · exact Or.inl ⟨rfl, hnil⟩

end Load

/-! ## When the first copy is made -/

/-- What the page of the segment's first address needs: a place in the lower half, `PF_R`, no
mapping there yet, and frames for the page and for the tables of its walk that are not there. -/
def FirstPage (root : Nat) (T : Finset (List (Fin 512))) (ph : ProgramHeader) (a : BumpAllocator)
    (m : Machine) : Prop :=
  ph.flags &&& pfR ≠ 0 ∧ ∃ page : Page, page.base.addr = ph.vaddr / pageSize * pageSize ∧
    ph.vaddr < 2 ^ 47 ∧ trailOf m.mem root page.keys = none ∧
    1 + (page.ways \ T).card ≤ (m.freeFrom a.index).card

/-- The end of the file range wraps, the header gets past the checks all the same, and the first
page gets what it needs. -/
structure WrapsAndCopies (env : Env) (root : Nat) (T : Finset (List (Fin 512))) (program : Program)
    (ph : ProgramHeader) (a : BumpAllocator) (m : Machine) : Prop where
  unchecked : env.overflowChecks = false
  wraps : 2 ^ 64 ≤ ph.offset + ph.filesz
  file : (ph.offset + ph.filesz) % 2 ^ 64 ≤ program.len
  room : ph.filesz ≤ ph.memsz
  below : ph.vaddr + ph.memsz ≤ 0xFFFF800000000000
  page : FirstPage root T ph a m

section First

variable {env : Env} {root : Nat} {T : Finset (List (Fin 512))} {program : Program}
  {ph : ProgramHeader} {a : BumpAllocator} {m : Machine}

/-- A log with a subtraction in it. -/
def Subtracted (log : List LoadEvent) : Prop := ∃ x y, .subtracted x y ∈ log

theorem Subtracted.not_onlyFrames {log : List LoadEvent} (h : Subtracted log) :
    ¬ OnlyFrames log := by
  intro honly
  obtain ⟨x, y, hmem⟩ := h
  obtain ⟨f, hf⟩ := honly _ hmem
  cases hf

/-- The frames for the page and its missing tables, counted before and after the page's own frame
was taken. -/
theorem freeFrom_claim {b : BumpAllocator} {m' : Machine} {f : RawFrame}
    (hc : BumpAllocator.Claimed .user m f m') (hindex : b.index = f.number)
    (hle : a.index ≤ f.number)
    (hleast : ∀ n, a.index ≤ n → n < f.number → m.typing n ≠ some (.untyped, 0)) :
    (m'.freeFrom b.index).card + 1 = (m.freeFrom a.index).card := by
  have hmem := Machine.mem_freeFrom.mpr ⟨hle, hc.was_untyped⟩
  have hsame : m'.freeFrom b.index = (m.freeFrom a.index).erase f.number := by
    rw [← hc.freeFrom_user, hindex]
    ext n
    rw [Machine.mem_freeFrom, Machine.mem_freeFrom]
    refine ⟨fun hn => ⟨hle.trans hn.1, hn.2⟩, fun hn => ⟨?_, hn.2⟩⟩
    by_contra hlt
    have hlt : n < f.number := Nat.lt_of_not_le hlt
    have hty := hn.2
    rw [hc.typing_ne (Nat.ne_of_lt hlt)] at hty
    exact hleast n hn.1 hlt hty
  rw [hsame]
  exact Finset.card_erase_add_one hmem

/-- `map_to` maps the page exactly if nothing is mapped there and there are frames for the tables of
its walk that are not there. -/
theorem Growable.wp_mapTo_iff {page : Page} {f : RawFrame} {flags parent : PageTableFlags}
    (h : Growable env root T a m) (hlow : lowHalf (page.key 4)) (hf : f.Aligned)
    (hflags : flags.bits ≠ 0) (hparent : parent.contains .hugePage = false) :
    wp (mapTo env page f flags parent (root * frameSize) a)
      (fun r _ => r.1 = .ok () ↔ trailOf m.mem root page.keys = none ∧
        (page.ways \ T).card ≤ (m.freeFrom a.index).card)
      (fun _ _ => False) m := by
  have hways : (T ∪ page.ways).card = T.card + (page.ways \ T).card := by
    rw [← Finset.union_sdiff_self_eq_union, Finset.card_union_of_disjoint Finset.disjoint_sdiff]
  refine wp_mono (wp_and (wp_mapTo hf (Or.inr hflags) hlow h.rooted a)
    (wp_mapTo_charged h.rooted hlow h.noHuge hparent hf (Or.inr hflags) h.covered h.searchable
      h.tables)) ?_ fun _ _ hpanic => hpanic.2
  rintro r m' ⟨hend, hcharged⟩
  cases hcharged with
  | paid htables hsearch hlength hskipped hpaid =>
    have hi : Installed lowHalf root page f flags parent (m.noted (.mapTo page)) m' := hend
    exact iff_of_true rfl ⟨hi.vacant, by omega⟩
  | short hshort =>
    refine iff_of_false (fun hok => by cases hok) ?_
    rintro ⟨_, hfree⟩
    omega
  | occupied hmapped => exact iff_of_false (fun hok => by cases hok) fun hall => hmapped hall.1

/-- What is left to ask of the page once it has its place and `PF_R`. -/
theorem firstPage_iff {page : Page} (hbase : page.base.addr = ph.vaddr / pageSize * pageSize)
    (hread : ph.flags &&& pfR ≠ 0) (hlow : ph.vaddr < 2 ^ 47) :
    FirstPage root T ph a m ↔ trailOf m.mem root page.keys = none ∧
      1 + (page.ways \ T).card ≤ (m.freeFrom a.index).card := by
  refine ⟨?_, fun hleft => ⟨hread, page, hbase, hlow, hleft⟩⟩
  rintro ⟨_, q, hq, _, hleft⟩
  obtain rfl : q = page := Page.ext_base (hq.trans hbase.symm)
  exact hleft

/-- **The first turn** comes as far as the subtraction exactly if the first page gets what it
needs. -/
theorem Growable.wp_firstTurn (h : Growable env root T a m) {fileEnd : Nat}
    (hv : ph.vaddr < 0xFFFF800000000000) :
    wp (segmentPageLogged env (root * frameSize) program ph fileEnd ph.vaddr ph.offset a)
      (fun _ s => FirstPage root T ph a m ∧ Subtracted s.2)
      (fun _ s => FirstPage root T ph a m ∧ Subtracted s.2 ∨
        ¬ FirstPage root T ph a m ∧ OnlyFrames s.2) (m, []) := by
  have hnil : OnlyFrames [] := fun e he => absurd he List.not_mem_nil
  unfold segmentPageLogged
  rw [wp_bind, wp_lift]
  refine wp_mono h.claim ?_ fun _ _ hfalse => hfalse.elim
  rintro ⟨r, b⟩ m₁ (⟨hnone, rfl, hempty⟩ | ⟨u, hsome, hc, h₁, hindex, hle, hleast⟩)
  · -- no frame for the page
    obtain rfl : r = none := hnone
    refine .inr ⟨?_, hnil⟩
    rintro ⟨_, page, _, _, _, hfree⟩
    rw [hempty, Finset.card_empty] at hfree
    omega
  obtain rfl : r = some u := hsome
  have hcount := freeFrom_claim hc hindex hle hleast
  have honly : OnlyFrames [LoadEvent.allocated u.frame] := fun e he =>
    ⟨u.frame, List.mem_singleton.mp he⟩
  rw [wp_bind, wp_lift]
  show wp (tell (LoadEvent.allocated u.frame) >>= _) _ _ (m₁, [])
  rw [wp_bind, wp_tell, wp_bind, wp_lift]
  refine wp_orPanic (fun addr haddr => ?_) fun p hp => .inr ⟨?_, honly⟩
  swap
  · rintro ⟨_, page, _, hlow, _⟩
    rw [VirtAddr.new_of_canonical (canonical_iff.mpr (.inl hlow))] at hp
    cases hp
  have haddr := VirtAddr.new_eq_ok haddr
  have hcanon := canonical_iff.mp addr.canonical
  rw [wp_bind, wp_lift]
  refine wp_orPanic (fun page hpage => ?_) fun p hp => ?_
  swap
  · rw [Page.containingAddress_of] at hp
    cases hp
  have hbase := Page.containingAddress_eq_ok hpage
  rw [haddr] at hcanon hbase
  rw [wp_bind, wp_lift]
  refine wp_assert_cases (fun hR => ?_) fun hR p => .inr ⟨?_, honly⟩
  swap
  · exact fun hall => hall.1 (by simpa using hR)
  have hread : ph.flags &&& pfR ≠ 0 := by simpa using hR
  have hlow : lowHalf (page.key 4) := lowHalf_of_lt (by
    rw [hbase]
    exact Nat.lt_of_le_of_lt (Nat.div_mul_le_self _ _) hv)
  rw [wp_bind, wp_lift]
  refine wp_mono (h₁.wp_mapTo_iff hlow hc.aligned (segmentFlags_ne ph) (by decide)) ?_
    fun _ _ hfalse => hfalse.elim
  rintro ⟨r, b₂⟩ m₂ hmaps
  -- the page's own frame is taken, so `map_to` decides about the rest
  have hfirst : FirstPage root T ph a m ↔ r = .ok () := by
    rw [firstPage_iff hbase hread (by omega), ← hc.mem_eq, hmaps]
    exact and_congr_right fun _ => by omega
  cases r with
  | error e =>
    refine .inr ⟨fun hall => ?_, honly⟩
    cases hfirst.mp hall
  | ok _ =>
    have hfirst : FirstPage root T ph a m := hfirst.mpr rfl
    rw [wp_bind, wp_lift]
    show wp (lift (orPanic (u.frame.ptr env)) >>= _) _ _ (m₂, [LoadEvent.allocated u.frame])
    rw [wp_bind, wp_lift]
    refine wp_orPanic (fun ptr hptr => ?_) fun p hp => ?_
    swap
    · exact absurd ⟨_, Machine.lt_length_of_typing hc.was_untyped,
        RawFrame.unmapped_of_ptr hc.aligned hp⟩ h.covered
    rw [wp_bind, wp_tell]
    -- from here on the subtraction is in the log
    refine wp_mono ((KeepsLog.bind (.lift _) fun left => .bind (fillPageLogged_keepsLog _ _ _ _)
      fun _ => .bind (.lift _) fun _ => .bind (.lift _) fun _ => .pure _) m₂ _ _
      List.mem_cons_self) ?_ ?_
    · exact fun _ _ hmem => ⟨hfirst, _, _, hmem⟩
    · exact fun _ _ hmem => .inl ⟨hfirst, _, _, hmem⟩

/-- **The first turn decides for the loop**: what is in the log stays in it. -/
theorem Growable.wp_loop_subtracted (h : Growable env root T a m) {vmEnd fileEnd : Nat}
    (hlt : ph.vaddr < vmEnd) (hbelow : vmEnd ≤ 0xFFFF800000000000) :
    wp (segmentLoopLogged env (root * frameSize) program ph vmEnd fileEnd (vmEnd - ph.vaddr)
        ph.vaddr ph.offset a)
      (fun _ s => Subtracted s.2 ↔ FirstPage root T ph a m)
      (fun _ s => Subtracted s.2 ↔ FirstPage root T ph a m) (m, []) := by
  obtain ⟨left, hleft⟩ := Nat.exists_eq_succ_of_ne_zero (Nat.sub_ne_zero_of_lt hlt)
  rw [hleft]
  unfold segmentLoopLogged
  rw [if_pos hlt]
  refine wp_seq (h.wp_firstTurn (by omega)) ?_ ?_
  · rintro ⟨v, f, b⟩ ⟨m', log⟩ ⟨hfirst, x, y, hmem⟩
    refine wp_mono (segmentLoopLogged_keepsLog _ _ _ _ _ _ m' log _ hmem) ?_ ?_ <;>
      exact fun _ _ hmem => iff_of_true ⟨x, y, hmem⟩ hfirst
  · rintro p ⟨m', log⟩ (⟨hfirst, hsub⟩ | ⟨hnot, honly⟩)
    · exact iff_of_true hsub hfirst
    · exact iff_of_false (fun hsub => hsub.not_onlyFrames honly) hnot

/-- The log of a load whose file range wraps and passes the checks. -/
theorem Growable.subtracted_iff (h : Growable env root T a m) (hchecks : env.overflowChecks = false)
    (hwraps : 2 ^ 64 ≤ ph.offset + ph.filesz) :
    Subtracted (segmentLog env (root * frameSize) program ph a m) ↔
      WrapsAndCopies env root T program ph a m := by
  have hoff := ph.offset_lt
  have hmemsz := ph.memsz_lt
  have hsum : WrapsAndCopies env root T program ph a m →
      env.add ph.vaddr ph.memsz = .ok (ph.vaddr + ph.memsz) := fun hW =>
    Env.add_of_lt env (Nat.lt_of_le_of_lt hW.below (by decide))
  -- nothing is in the log where a check fails
  have hstop : ¬ WrapsAndCopies env root T program ph a m →
      (Subtracted [] ↔ WrapsAndCopies env root T program ph a m) := fun hnot =>
    iff_of_false (fun ⟨x, y, hmem⟩ => absurd hmem List.not_mem_nil) hnot
  refine wp_finalState (P := fun s : Machine × List LoadEvent => Subtracted s.2 ↔
    WrapsAndCopies env root T program ph a m) ?_
  unfold segmentLoadLogged
  rw [wp_bind, wp_lift]
  refine wp_orPanic (fun vmEnd hvm => ?_) fun p hp => hstop fun hW => ?_
  swap
  · rw [hsum hW] at hp
    cases hp
  rw [wp_bind, wp_lift]
  refine wp_orPanic (fun fileEnd hfile => ?_) fun p hp => hstop fun hW => ?_
  swap
  · rw [Env.add_wraps hchecks hwraps] at hp
    cases hp
  rw [Env.add_wraps hchecks hwraps] at hfile
  obtain rfl := Except.ok.inj hfile
  have hend : WrapsAndCopies env root T program ph a m → vmEnd = ph.vaddr + ph.memsz := fun hW =>
    Except.ok.inj (hvm.symm.trans (hsum hW))
  rw [wp_bind, wp_lift]
  refine wp_assert_cases (fun hbelow => ?_) fun hbelow p => hstop fun hW => ?_
  swap
  · have hle := hW.below
    rw [← hend hW] at hle
    exact absurd hle (of_decide_eq_false hbelow)
  rw [wp_bind, wp_lift]
  refine wp_assert_cases (fun hinside => ?_) fun hinside p => hstop fun hW => ?_
  swap
  · exact absurd hW.file (of_decide_eq_false hinside)
  rw [wp_bind, wp_lift]
  refine wp_assert_cases (fun hroom => ?_) fun hroom p => hstop fun hW => ?_
  swap
  · exact absurd hW.room (of_decide_eq_false hroom)
  have hbelow : vmEnd ≤ 0xFFFF800000000000 := of_decide_eq_true hbelow
  have hroom : ph.filesz ≤ ph.memsz := of_decide_eq_true hroom
  by_cases hlt : ph.vaddr < vmEnd
  · have hnowrap : vmEnd = ph.vaddr + ph.memsz := by
      rcases Env.add_eq_ok hvm with ⟨_, heq⟩ | ⟨_, hge, heq⟩
      · exact heq
      · omega
    have hW : FirstPage root T ph a m ↔ WrapsAndCopies env root T program ph a m :=
      ⟨fun hfirst => ⟨hchecks, hwraps, of_decide_eq_true hinside, hroom, hnowrap ▸ hbelow, hfirst⟩,
        WrapsAndCopies.page⟩
    rw [← hW]
    exact h.wp_loop_subtracted hlt hbelow
  · rw [Nat.sub_eq_zero_of_le (Nat.le_of_not_lt hlt)]
    refine hstop fun hall => ?_
    have heq := hend hall
    omega

end First

/-- **What `Segment::load` copies.** It ends. Its copies stay in the image and in the frame where
the sum of the file range is checked or does not wrap; and where the tables can grow, exactly unless
it wraps, the header gets past the checks and the first page gets what it needs. -/
theorem segment_copies_inside_iff (env : Env) (l4 : Nat) (program : Program) (ph : ProgramHeader)
    (a : BumpAllocator) (m : Machine) :
    (∀ more, segmentLoadWithin env l4 program ph more a m = segmentLoad env l4 program ph a m) ∧
      forget (segmentLoadLogged env l4 program ph a (m, [])) = segmentLoad env l4 program ph a m ∧
      (env.overflowChecks = true ∨ ph.offset + ph.filesz < 2 ^ 64 →
        CopiesInside program ph (segmentLog env l4 program ph a m)) ∧
      ∀ root T, l4 = root * frameSize → Growable env root T a m →
        (CopiesInside program ph (segmentLog env l4 program ph a m) ↔
          ¬ WrapsAndCopies env root T program ph a m) := by
  have hsafe : env.overflowChecks = true ∨ ph.offset + ph.filesz < 2 ^ 64 →
      CopiesInside program ph (segmentLog env l4 program ph a m) := by
    intro h
    by_cases hfits : ph.offset + ph.filesz < 2 ^ 64
    · exact segmentLog_inside hfits a m
    · refine segmentLog_of_loop a m trivial fun _ fileEnd _ hfile _ => ?_
      exact absurd (Env.add_checked (h.resolve_right hfits) hfile).1 hfits
  refine ⟨fun more => by rw [segmentLoadWithin_eq], segmentLoadLogged_erases a (m, []), hsafe, ?_⟩
  rintro root T rfl h
  by_cases hok : env.overflowChecks = true ∨ ph.offset + ph.filesz < 2 ^ 64
  · refine iff_of_true (hsafe hok) fun hW => ?_
    have hunchecked := hW.unchecked
    have hwraps := hW.wraps
    rcases hok with hchecks | hfits
    · rw [hchecks] at hunchecked
      cases hunchecked
    · omega
  rw [not_or, Bool.not_eq_true, Nat.not_lt] at hok
  obtain ⟨hchecks, hwraps⟩ := hok
  rw [← h.subtracted_iff hchecks hwraps]
  rcases segmentLog_wrapped env (root * frameSize) program hwraps a m with
    honly | ⟨fileEnd, hlt, hmem⟩
  · exact iff_of_true (CopiesInside.of_onlyFrames honly) fun hsub => hsub.not_onlyFrames honly
  · exact iff_of_false (fun hin => absurd (hin.le_of_mem hmem) (Nat.not_le_of_lt hlt))
      (not_not_intro ⟨_, _, hmem⟩)

/-- A segment of 32 bytes whose file range starts 16 bytes below `2 ^ 64`. -/
def wrappedHeader : ProgramHeader where
  type := ptLoad
  flags := pfR
  offset := 2 ^ 64 - 16
  vaddr := 0
  filesz := 32
  memsz := 32
  offset_lt := by decide
  vaddr_lt := by decide
  filesz_lt := by decide
  memsz_lt := by decide

/-- An image of 64 bytes with nothing around it. -/
def shortImage : Program := ⟨0x10000, 64, fun _ => 0, fun _ => none⟩

/-- An empty L4 table in frame 1, and a frame for the segment and the tables above it. -/
def roomySpace : Machine :=
  { blankSpace with
    retypeMap := .unavailable :: .kernel 1 RetypeEntry.one_le_maxRefCount :: .replicate 4 .untyped }

theorem roomySpace_growable : Growable Env.release frameOne.number ∅ .new roomySpace := by
  have hempty : ∀ k, lowHalf k → entryOf roomySpace.mem frameOne.number k = none :=
    fun _ _ => PageTableEntry.decode_eq_none.mpr wordOf_zero
  refine ⟨rooted_of_empty hempty rfl (by decide), ?_, fun ks => ?_, ?_, by decide⟩
  · exact fun _ _ _ _ hl => absurd hl (Radix.not_link_of_empty hempty)
  · refine iff_of_false (Finset.notMem_empty ks) ?_
    rintro ⟨hne, n, hn⟩
    exact hne (hn.of_empty hempty).1
  · unfold Uncovered
    decide

/-- The page, its three tables and four frames for them: nothing stops the copy. -/
theorem segment_copies_inside_iff_roomySpace :
    Growable Env.release frameOne.number ∅ .new roomySpace ∧
      ¬ CopiesInside shortImage wrappedHeader (segmentLog Env.release
        (frameOne.number * frameSize) shortImage wrappedHeader .new roomySpace) := by
  refine ⟨roomySpace_growable, fun hin => ?_⟩
  obtain ⟨_, _, _, hiff⟩ := segment_copies_inside_iff Env.release (frameOne.number * frameSize)
    shortImage wrappedHeader .new roomySpace
  refine (hiff _ _ rfl roomySpace_growable).mp hin
    ⟨rfl, by decide, by decide, by decide, by decide, by decide, pageZero, rfl, by decide, ?_, ?_⟩
  · decide +kernel
  · decide +kernel

/-- In the `release` profile the segment passes the checks, and the copy reads far outside the
image. -/
theorem segment_copies_outside :
    segmentLog Env.release frameOne.base.addr shortImage wrappedHeader .new roomySpace =
        [.copied (2 ^ 64 - 16) 0x2000 32, .subtracted 16 (2 ^ 64 - 16),
          .allocated ⟨⟨0x2000, by decide⟩⟩] ∧
      ¬ CopiesInside shortImage wrappedHeader
        (segmentLog Env.release frameOne.base.addr shortImage wrappedHeader .new roomySpace) := by
  have hlog : segmentLog Env.release frameOne.base.addr shortImage wrappedHeader .new roomySpace =
      [.copied (2 ^ 64 - 16) 0x2000 32, .subtracted 16 (2 ^ 64 - 16),
        .allocated ⟨⟨0x2000, by decide⟩⟩] := by
    decide +kernel
  refine ⟨hlog, fun h => ?_⟩
  rw [hlog] at h
  exact absurd h.2.1 (by decide)

end Harmony
