import Harmony.Boot.Loops

/-!
# The new address space

`AnyPageTable::new_l4`: the entries 256 to 511 of the table in CR3 copied word for word, the other
256 empty, in a frame that was untyped. On the way `clone_kernel` takes a reference to the table in
CR3 and drops it, which leaves that frame's counter lower than before but its state as it was.

* `wp_cloneKernel`, `wp_newL4`, `wp_setup`: each part, with the states a panic leaves.
* `NewSpace.placing`: the new table is where the loader's invariant starts.
-/

namespace Harmony

open Lib
open BumpAllocator (Claimed)

/-- Memory, CR3 and the record of events are as they were. -/
structure Quiet (m m' : Machine) : Prop where
  mem : m'.mem = m.mem
  cr3 : m'.cr3 = m.cr3
  trace : m'.trace = m.trace

theorem Quiet.refl (m : Machine) : Quiet m m := ⟨rfl, rfl, rfl⟩

theorem Quiet.setEntry {m m' : Machine} (h : Quiet m m') (n : Nat) (e : RetypeEntry) :
    Quiet m (m'.setEntry n e) := ⟨h.mem, h.cr3, h.trace⟩

/-! ## Cloning the kernel half -/

section Clone

variable {env : Env} {m m' : Machine}

/-- The kernel half of the table at physical address `table`, with the lower half empty. -/
def kernelHalf (mem : Mem) (table : Nat) : AnyPageTable := fun i =>
  if 256 ≤ i ∧ i < 512 then load64 mem (table + 8 * i) else 0

/-- One entry: the word is taken apart and put together again. -/
theorem cloneEntry_eq (table : Nat) (new : AnyPageTable) (i : Nat) (m : Machine) :
    AnyPageTable.cloneEntry table new i m = .ok (if load64 m.mem (table + 8 * i) = 0 then new
      else Function.update new i (load64 m.mem (table + 8 * i))) m := by
  unfold AnyPageTable.cloneEntry
  refine (bind_of_eq_ok (show load _ m = .ok (load64 m.mem _) m from rfl)).trans ?_
  refine (orPanic_ok_bind _ m (PageTableEntry.get_eq _)).trans ?_
  cases hd : PageTableEntry.decode (load64 m.mem (table + 8 * i)) with
  | none =>
    rw [if_pos (PageTableEntry.decode_eq_none.mp hd)]
    rfl
  | some e =>
    have hne : load64 m.mem (table + 8 * i) ≠ 0 := by
      intro h0
      rw [PageTableEntry.decode_eq_none.mpr h0] at hd
      exact absurd hd (by simp)
    rw [if_neg hne, ← PageTableEntry.encode_of_decode hd]
    rfl

/-- The loop over any entries: those that are not empty come out in the new table. -/
theorem cloneLoop_eq (table : Nat) (m : Machine) (is : List Nat) :
    ∀ new : AnyPageTable, is.foldlM (AnyPageTable.cloneEntry table) new m = .ok (fun i =>
      if i ∈ is ∧ load64 m.mem (table + 8 * i) ≠ 0 then load64 m.mem (table + 8 * i)
      else new i) m := by
  induction is with
  | nil =>
    intro new
    simp only [List.not_mem_nil, false_and, if_false]
    rfl
  | cons j is ih =>
    intro new
    rw [List.foldlM_cons, bind_of_eq_ok (cloneEntry_eq table new j m), ih]
    congr 1
    funext i
    by_cases hi : i ∈ is ∧ load64 m.mem (table + 8 * i) ≠ 0
    · rw [if_pos hi, if_pos ⟨List.mem_cons_of_mem j hi.1, hi.2⟩]
    · rw [if_neg hi]
      by_cases hij : i = j
      · subst hij
        by_cases h0 : load64 m.mem (table + 8 * i) = 0
        · rw [if_pos h0, if_neg fun h => h.2 h0]
        · rw [if_neg h0, Function.update_self, if_pos ⟨List.mem_cons_self, h0⟩]
      · have hout : ¬ (i ∈ j :: is ∧ load64 m.mem (table + 8 * i) ≠ 0) := by
          rintro ⟨hmem, h0⟩
          exact hi ⟨(List.mem_cons.mp hmem).resolve_left hij, h0⟩
        rw [if_neg hout]
        split_ifs
        · rfl
        · exact Function.update_of_ne hij _ _

theorem cloneKernel_loop (table : Nat) (m : Machine) :
    (List.range' 256 256).foldlM (AnyPageTable.cloneEntry table) AnyPageTable.new m =
      .ok (kernelHalf m.mem table) m := by
  rw [cloneLoop_eq]
  congr 1
  funext i
  unfold kernelHalf AnyPageTable.new
  have hmem : i ∈ List.range' 256 256 ↔ 256 ≤ i ∧ i < 512 := List.mem_range'_1
  by_cases hi : 256 ≤ i ∧ i < 512
  · rw [if_pos hi]
    by_cases h0 : load64 m.mem (table + 8 * i) = 0
    · rw [if_neg fun h => h.2 h0, h0]
    · rw [if_pos ⟨hmem.mpr hi, h0⟩]
  · rw [if_neg hi, if_neg fun h => hi (hmem.mp h.1)]

/-- **`current`**: one reference more to the table in CR3. -/
theorem wp_current (m : Machine) :
    wp (AnyPageTable.current env)
      (fun p m' => m.cr3.Aligned ∧ m.cr3.base.toVirtual env = .ok p.inner ∧ ∃ e e',
        m.retypeMap[m.cr3.number]? = some e ∧ e.get.1 = .kernel ∧ e'.get.1 = .kernel ∧
        m' = m.setEntry m.cr3.number e')
      (fun _ m' => Quiet m m') m := by
  unfold AnyPageTable.current AnyPageTable.currentRaw
  simp only [wp_bind, wp_get]
  refine wp_orPanic (fun base hbase => ?_) (fun _ _ => Quiet.refl m)
  refine wp_orPanic (fun frame hframe => ?_) (fun _ _ => Quiet.refl m)
  obtain ⟨hfb, hal⟩ := RawFrame.fromStartAddress_eq_ok hframe
  rw [PhysAddr.new_of_lt m.cr3.base.lt] at hbase
  obtain rfl := Except.ok.inj hbase
  obtain rfl : frame = m.cr3 := congrArg RawFrame.mk hfb
  rcases tryAs_cases env .kernel m.cr3 m with ⟨err, hrun⟩ | ⟨e, e', he, hst, _, hg, hrun⟩
  · have h₁ : m.cr3.tryAsKernel env m = .ok (.error err) m := bind_of_eq_ok hrun
    rw [wp_of_eq_ok h₁]
    exact Quiet.refl m
  · have h₁ : m.cr3.tryAsKernel env m = .ok (.ok ⟨m.cr3⟩) (m.setEntry m.cr3.number e') :=
      bind_of_eq_ok hrun
    have hq := (Quiet.refl m).setEntry m.cr3.number e'
    rw [wp_of_eq_ok h₁]
    simp only [unwrapOk, wp_pure]
    unfold KPtr.fromFrameUnchecked
    rw [wp_bind]
    refine wp_mono (KPtr.wp_pointer env m.cr3 _) ?_ ?_
    · rintro v m' ⟨rfl, hv, _⟩
      exact ⟨hal, hv, e, e', he, hst, by rw [hg], rfl⟩
    · rintro _ m' rfl
      exact hq

/-- What `clone_kernel` does to the machine: the table in CR3 is a kernel frame, before and
after. -/
structure Cloned (m m' : Machine) : Prop extends Quiet m m' where
  typing_ne : ∀ n, n ≠ m.cr3.number → m'.typing n = m.typing n
  typing_cr3 : ∃ c c', m.typing m.cr3.number = some (.kernel, c) ∧
    m'.typing m.cr3.number = some (.kernel, c')

/-- **`clone_kernel`**: the kernel half of the table in CR3, word for word. -/
theorem wp_cloneKernel (m : Machine) :
    wp (AnyPageTable.cloneKernel env)
      (fun t m' => t = kernelHalf m.mem m.cr3.base.addr ∧ m.cr3.Aligned ∧ Cloned m m')
      (fun _ m' => Quiet m m') m := by
  unfold AnyPageTable.cloneKernel
  refine wp_seq (wp_current m) ?_ (fun _ _ hq => hq)
  rintro p m₁ ⟨hal, hv, e, e', he, hst, hst', rfl⟩
  have hq := (Quiet.refl m).setEntry m.cr3.number e'
  have he' := Machine.getElem?_setEntry_self e' he
  rw [wp_bind]
  refine wp_orPanic (fun table htable => ?_) (fun _ _ => hq)
  obtain ⟨rfl, hp⟩ := KPtr.points_of_directMap hv htable
  refine (wp_bind _ _).mpr ?_
  rw [wp_of_eq_ok (cloneKernel_loop _ _), wp_bind]
  by_cases h2 : 2 ≤ e'.get.2
  · obtain ⟨e'', hg, hrun⟩ := KPtr.drop_of_two_le (p := p) hal hp he' h2
    rw [wp_of_eq_ok hrun]
    have he'' := Machine.getElem?_setEntry_self e'' he'
    refine ⟨rfl, hal, hq.setEntry _ _, fun n hn => ?_, e.get.2, e''.get.2, ?_, ?_⟩
    · unfold Machine.typing
      rw [Machine.getElem?_setEntry_ne hn, Machine.getElem?_setEntry_ne hn]
    · simp [Machine.typing, he, ← hst]
    · have hst'' : e''.get.1 = .kernel := by rw [hg, ← hst']
      simp [Machine.typing, he'', ← hst'']
  · obtain ⟨err, e'', hrun⟩ := KPtr.drop_of_lt_two (p := p) hal hp he' (by omega)
    unfold wp
    rw [hrun]
    exact hq.setEntry _ _

end Clone

/-! ## The new table -/

/-- `m₀` is `m` with a new L4 table in frame `f`. -/
structure NewSpace (m : Machine) (f : RawFrame) (m₀ : Machine) : Prop where
  aligned : f.Aligned
  was_untyped : m.typing f.number = some (.untyped, 0)
  typed : m₀.typing f.number = some (.kernel, 1)
  others : ∀ n, n ≠ f.number → m₀.typing n = m.typing n ∨ (n = m.cr3.number ∧
    ∃ c c', m.typing n = some (.kernel, c) ∧ m₀.typing n = some (.kernel, c'))
  cr3 : m₀.cr3 = m.cr3
  cr3_aligned : m.cr3.Aligned
  trace : m₀.trace = .construct f :: m.trace
  mem : ∀ x, x / frameSize ≠ f.number → m₀.mem x = m.mem x
  table : ∀ i < 512, load64 m₀.mem (f.number * frameSize + 8 * i) =
    kernelHalf m.mem (m.cr3.number * frameSize) i

section New

variable {env : Env} {m m' m₀ : Machine} {f : RawFrame}

/-- `KPtr::new`: the frame claimed and written, or an error. -/
theorem wp_kptrNew (hf : f.Aligned) (value : PageBytes) :
    wp (KPtr.new env f value)
      (fun r m' => match r with
        | .ok p => ∃ mc, Claimed .kernel m f mc ∧ p.Points env f ∧
            m' = (mc.store f.base.addr pageSize value).noted (.construct f)
        | .error _ => m' = m)
      (fun _ m' => Quiet m m') m := by
  refine wp_mono (KPtr.wp_new env f value m) ?_ ?_
  · intro r m' h
    cases r with
    | error e => exact h
    | ok p =>
      obtain ⟨e, e', he, hg, hg', hp, _, rfl⟩ := h
      exact ⟨_, ⟨hf, e, e', he, hg, hg', rfl⟩, hp, rfl⟩
  · rintro _ m' (rfl | ⟨e', rfl⟩)
    · exact Quiet.refl m'
    · exact (Quiet.refl m).setEntry f.number e'

/-- **`new_l4`.** -/
theorem wp_newL4 (hf : f.Aligned) :
    wp (AnyPageTable.newL4 env f)
      (fun r m₀ => match r with
        | .ok p => p.Points env f ∧ NewSpace m f m₀
        | .error _ => Quiet m m₀)
      (fun _ m' => Quiet m m') m := by
  unfold AnyPageTable.newL4
  refine wp_seq (wp_cloneKernel m) ?_ (fun _ _ hq => hq)
  rintro t m₁ ⟨rfl, hal, hcl⟩
  refine wp_mono (wp_kptrNew hf _) ?_ ?_
  · rintro r m₀ hr
    cases r with
    | error e =>
      obtain rfl : m₀ = m₁ := hr
      exact hcl.toQuiet
    | ok p =>
      obtain ⟨mc, hc, hp, rfl⟩ := hr
      obtain ⟨c, c', hck, hck'⟩ := hcl.typing_cr3
      have hne : f.number ≠ m.cr3.number := by
        intro heq
        have hwas := hc.was_untyped
        rw [heq, hck'] at hwas
        exact absurd hwas (by simp)
      have hmem : mc.mem = m.mem := hc.mem_eq.trans hcl.mem
      refine ⟨hp, hf, (hcl.typing_ne _ hne).symm.trans hc.was_untyped, hc.typing_self, ?_,
        hc.cr3_eq.trans hcl.cr3, hal, ?_, ?_, ?_⟩
      · intro n hn
        have hn' : ((mc.store f.base.addr pageSize (kernelHalf m.mem m.cr3.base.addr).bytes).noted
            (.construct f)).typing n = m₁.typing n := hc.typing_ne hn
        by_cases hcr : n = m.cr3.number
        · subst hcr
          exact Or.inr ⟨rfl, c, c', hck, hn'.trans hck'⟩
        · exact Or.inl (hn'.trans (hcl.typing_ne n hcr))
      · show Event.construct f :: mc.trace = _
        rw [hc.trace_eq, hcl.trace]
      · intro x hx
        simp only [Machine.noted_mem, Machine.store_mem, hmem, hf.base_eq]
        exact store_frame_ne _ hx
      · intro i hi
        simp only [Machine.noted_mem, Machine.store_mem, hf.base_eq]
        rw [load64_table _ _ _ hi, hal.base_eq]
  · intro _ m' hq
    exact ⟨hq.mem.trans hcl.mem, hq.cr3.trans hcl.cr3, hq.trace.trans hcl.trace⟩

/-- The sum `load` asserts to end below the upper half. -/
def WindowBelow (env : Env) (args : LoadArgs) : Prop :=
  ∃ windowEnd, env.add args.untypedMemoryOffset args.untypedMemoryLength = .ok windowEnd ∧
    windowEnd < 0xFFFF800000000000

/-- Where the arguments do not wrap, the window ends below the upper half. -/
theorem WindowBelow.lt {args : LoadArgs} (h : WindowBelow env args) (hfit : args.Fit env) :
    args.untypedMemoryOffset + args.untypedMemoryLength < 0xFFFF800000000000 := by
  obtain ⟨windowEnd, hend, hlt⟩ := h
  rcases hfit with hchecks | ⟨_, hroom⟩
  · rw [(Env.add_checked hchecks hend).2] at hlt
    exact hlt
  · rw [Env.add_of_lt env hroom] at hend
    rw [Except.ok.inj hend]
    exact hlt

/-- **The start of `load`**: the arguments are in order and the new L4 table stands; or nothing has
been written. -/
theorem wp_setup {program : Program} {args : LoadArgs} :
    wp (setup env program args)
      (fun r m₀ => WindowBelow env args ∧ ∃ f, r.1.Points env f ∧ NewSpace m f m₀)
      (fun _ m' => Quiet m m') m := by
  have hq := Quiet.refl m
  unfold setup
  simp only [wp_bind]
  refine wp_assert (fun _ => ?_) (fun _ => hq)
  refine wp_assert (fun _ => ?_) (fun _ => hq)
  refine wp_orPanic (fun windowEnd hend => ?_) (fun _ _ => hq)
  refine wp_assert (fun hlt => ?_) (fun _ => hq)
  refine wp_assert (fun _ => ?_) (fun _ => hq)
  have hwin : WindowBelow env args := ⟨windowEnd, hend, of_decide_eq_true hlt⟩
  refine wp_mono (BumpAllocator.wp_allocUntypedFrame _) ?_ ?_
  · rintro ⟨r, a⟩ m₁ hr
    cases r with
    | none =>
      obtain rfl : m₁ = m := hr
      exact hq
    | some f =>
      obtain ⟨rfl, hal, _⟩ := hr
      simp only [unwrap, wp_pure]
      refine wp_mono (wp_newL4 hal) ?_ (fun _ _ hq => hq)
      rintro r m₀ hr
      cases r with
      | error e => exact hr
      | ok p => exact ⟨hwin, f, hr⟩
  · rintro _ m₁ rfl
    exact hq

/-- The lower half of the new table is empty. -/
theorem NewSpace.empty (h : NewSpace m f m₀) {k : Fin 512} (hk : lowHalf k) :
    entryOf m₀.mem f.number k = none := by
  refine PageTableEntry.decode_eq_none.mpr ((h.table k k.isLt).trans ?_)
  unfold lowHalf at hk
  unfold kernelHalf
  rw [if_neg (by omega)]

/-- **The loader's invariant starts at the new table.** -/
theorem NewSpace.placing (h : NewSpace m f m₀) : Placing f.number m₀ [] m₀ := by
  have hempty : ∀ k : Fin 512, lowHalf k → entryOf m₀.mem f.number k = none := fun _ => h.empty
  refine { cr3 := rfl, events := ⟨[], rfl, fun e he => absurd he (by simp)⟩
           outside := fun _ _ _ => rfl, rooted := rooted_of_empty hempty h.typed (by decide)
           tables := fun ks n hn => Or.inl (hn.of_empty hempty).2
           links := fun _ _ _ _ hl => absurd hl (Radix.not_link_of_empty hempty)
           typing := fun _ => Or.inl rfl
           stale := fun _ _ => rfl, holds := fun p hp => absurd hp (by simp), complete := ?_
           pages := List.Pairwise.nil, frames := List.Pairwise.nil }
  intro page hlow hsome
  exfalso
  apply hsome
  unfold Page.keys Page.keysFrom trailOf
  rw [Radix.trail_cons, h.empty hlow]
  rfl

theorem NewSpace.ownTables (h : NewSpace m f m₀) : OwnTables f.number m₀ :=
  fun _ _ _ _ hl => absurd hl (Radix.not_link_of_empty fun _ => h.empty)

end New

end Harmony
