import Harmony.Boot.Cost
import Harmony.Boot.Kmain

/-!
# When a process can be loaded

`Process::load` (`arch/x86_64/bootup.rs`) has no error to return: it gives a process or it panics.
Here is when it does which, from the image, the arguments and the number of untyped frames alone.

`Ready` is the state it starts from: the direct map covers the retype table, untyped frames carry no
references, and the frame in CR3 is a held kernel frame. A retype table that was just built gives
one (`Ready.of_new`).

* `Ready.wp_setup`, `wp_readHeaders`: the start of `load`, up to an address space without pages.
* `CanLoad`: what `load` requires.
* **`load_returns_iff`**: it returns exactly when that is given, and takes exactly those frames.
-/

namespace Harmony

open Lib
open BumpAllocator (Claimed)

/-! ## The frames that are left -/

/-- There are `left` untyped frames, all from the cursor on. -/
structure Supply (env : Env) (a : BumpAllocator) (left : Nat) (m : Machine) : Prop where
  covered : ¬ Uncovered env m
  cursor : a.index ≤ m.retypeMap.length
  behind : ∀ n < a.index, m.typing n ≠ some (.untyped, 0)
  clean : ∀ n c, m.typing n = some (.untyped, c) → c = 0
  count : (m.freeFrom 0).card = left

/-- Frame `i` becomes a kernel frame; beside it only counters of kernel frames change. -/
structure Taken (m : Machine) (i : Nat) (m' : Machine) : Prop where
  was : m.typing i = some (.untyped, 0)
  now : ∃ c, m'.typing i = some (.kernel, c)
  others : ∀ n, n ≠ i → m'.typing n = m.typing n ∨
    ∃ c c', m.typing n = some (.kernel, c) ∧ m'.typing n = some (.kernel, c')

section Supply

variable {env : Env} {m m' : Machine} {i left : Nat} {a b : BumpAllocator}

theorem Taken.untyped_iff (h : Taken m i m') (n c : Nat) :
    m'.typing n = some (.untyped, c) ↔ n ≠ i ∧ m.typing n = some (.untyped, c) := by
  by_cases hn : n = i
  · subst hn
    obtain ⟨_, hnow⟩ := h.now
    rw [hnow]
    simp
  · rcases h.others n hn with heq | ⟨_, _, hc, hc'⟩
    · rw [heq]
      exact ⟨fun hu => ⟨hn, hu⟩, And.right⟩
    · rw [hc, hc']
      simp

theorem Taken.length_eq (h : Taken m i m') : m'.retypeMap.length = m.retypeMap.length := by
  refine length_eq_of_typed fun n => ?_
  by_cases hn : n = i
  · subst hn
    obtain ⟨_, hnow⟩ := h.now
    rw [hnow, h.was]
    simp
  · rcases h.others n hn with heq | ⟨_, _, hc, hc'⟩
    · rw [heq]
    · rw [hc, hc']
      simp

theorem Taken.freeFrom_eq (h : Taken m i m') : m'.freeFrom 0 = (m.freeFrom 0).erase i := by
  ext n
  rw [Finset.mem_erase, Machine.mem_freeFrom, Machine.mem_freeFrom, h.untyped_iff]
  exact and_left_comm

/-- **One frame less.** -/
theorem Supply.take (h : Supply env a left m) (ht : Taken m i m')
    (hfirst : ∀ n < i, m.typing n ≠ some (.untyped, 0)) (hb : b.index = i) :
    0 < left ∧ Supply env b (left - 1) m' := by
  have hmem : i ∈ m.freeFrom 0 := Machine.mem_freeFrom.mpr ⟨Nat.zero_le _, ht.was⟩
  refine ⟨h.count ▸ Finset.card_pos.mpr ⟨_, hmem⟩, ?_, ?_, fun n hn hu => ?_, fun n c hn => ?_, ?_⟩
  · rw [Uncovered.congr ht.length_eq]
    exact h.covered
  · rw [hb, ht.length_eq]
    exact (Machine.lt_length_of_typing ht.was).le
  · exact hfirst n (hb ▸ hn) ((ht.untyped_iff n 0).mp hu).2
  · exact h.clean n c ((ht.untyped_iff n c).mp hn).2
  · rw [ht.freeFrom_eq, Finset.card_erase_of_mem hmem, h.count]

/-- What a load leaves. -/
theorem Accounted.supply {root funds own : Nat} {pages : List Nat}
    (h : Accounted env root funds own pages a m) : Supply env .new (m.freeFrom 0).card m :=
  ⟨h.covered, Nat.zero_le _, fun n hn => absurd hn (Nat.not_lt_zero n), h.clean, rfl⟩

end Supply

/-! ## The new address space -/

/-- A state to load from: the direct map covers the retype table, untyped frames have no references,
and the table in CR3 is held. -/
structure Ready (env : Env) (m : Machine) : Prop where
  covered : ¬ Uncovered env m
  pmo_aligned : env.pmo % pageSize = 0
  clean : ∀ n c, m.typing n = some (.untyped, c) → c = 0
  cr3_aligned : m.cr3.Aligned
  cr3_held : ∃ c, m.typing m.cr3.number = some (.kernel, c) ∧ 0 < c ∧ c < 16382

section Setup

variable {env : Env} {m m₀ : Machine} {f : RawFrame} {program : Program} {args : LoadArgs}

theorem usable_of_covered (hcov : ¬ Uncovered env m) (hpmo : env.pmo % pageSize = 0)
    (hf : f.Aligned) {t : State × Nat} (ht : m.typing f.number = some t) : f.Usable env := by
  refine ⟨?_, hf, hpmo⟩
  unfold RawFrame.Mapped
  rw [hf.base_eq]
  by_contra hge
  exact hcov ⟨f.number, Machine.lt_length_of_typing ht, Nat.le_of_not_lt hge⟩

theorem Machine.entry_of_typing {n : Nat} {t : State × Nat} (h : m.typing n = some t) :
    ∃ e, m.retypeMap[n]? = some e ∧ e.get = t := by
  unfold Machine.typing at h
  exact Option.map_eq_some_iff.mp h

theorem Ready.supply (h : Ready env m) : Supply env .new (m.freeFrom 0).card m :=
  ⟨h.covered, Nat.zero_le _, fun n hn => absurd hn (Nat.not_lt_zero n), h.clean, rfl⟩

theorem currentRaw_of_aligned (h : m.cr3.Aligned) : AnyPageTable.currentRaw m = .ok m.cr3 m := by
  unfold AnyPageTable.currentRaw
  refine (bind_of_eq_ok (rfl : (get : KM Machine) m = .ok m m)).trans ?_
  rw [PhysAddr.new_of_lt m.cr3.base.lt, bind_of_eq_ok (rfl : orPanic (.ok _) m = .ok _ m),
    RawFrame.fromStartAddress_of_aligned h]
  rfl

/-- `clone_kernel` returns. -/
theorem Ready.cloneKernel (h : Ready env m) :
    ∃ t m₁, AnyPageTable.cloneKernel env m = .ok t m₁ := by
  obtain ⟨c, hc, hpos, hmax⟩ := h.cr3_held
  obtain ⟨e, he, hget⟩ := Machine.entry_of_typing hc
  have husable := usable_of_covered h.covered h.pmo_aligned h.cr3_aligned hc
  obtain ⟨e₁, hget₁, hrun₁⟩ := tryAs_of_room env he (by rw [hget]) (by rw [hget]; simp only; omega)
  have hkernel : m.cr3.tryAsKernel env m = .ok (.ok ⟨m.cr3⟩) (m.setEntry m.cr3.number e₁) :=
    bind_of_eq_ok hrun₁
  obtain ⟨p, hp, hptr⟩ :=
    KPtr.fromFrameUnchecked_of_usable (m := m.setEntry m.cr3.number e₁) husable
  have hcurrent : AnyPageTable.current env m = .ok p (m.setEntry m.cr3.number e₁) := by
    unfold AnyPageTable.current
    rw [bind_of_eq_ok (currentRaw_of_aligned h.cr3_aligned), bind_of_eq_ok hkernel]
    exact hptr
  have he₁ := Machine.getElem?_setEntry_self e₁ he
  have hcount : 2 ≤ e₁.get.2 := by
    rw [hget₁, hget]
    simp only
    rw [Nat.mod_eq_of_lt (by omega)]
    omega
  obtain ⟨e₂, _, hdrop⟩ := KPtr.drop_of_two_le (p := p) h.cr3_aligned hp he₁ hcount
  refine ⟨kernelHalf m.mem m.cr3.base.addr,
    (m.setEntry m.cr3.number e₁).setEntry m.cr3.number e₂, ?_⟩
  unfold AnyPageTable.cloneKernel
  rw [bind_of_eq_ok hcurrent, KPtr.directMap_of_points hp, orPanic_ok_bind _ _ rfl,
    bind_of_eq_ok (cloneKernel_loop _ _), bind_of_eq_ok hdrop]
  rfl

/-- `KPtr::new` returns a pointer, in a frame without references. -/
theorem kptrNew_of_untyped (hf : f.Usable env) (hu : m.typing f.number = some (.untyped, 0))
    (value : PageBytes) : ∃ p m', KPtr.new env f value m = .ok (.ok p) m' := by
  obtain ⟨e, he, hget⟩ := Machine.entry_of_typing hu
  obtain ⟨e', _, hrun⟩ := tryInto_of_eq .kernel he hget
  have hkernel : f.tryIntoKernel m = .ok (.ok ⟨f⟩) (m.setEntry f.number e') := bind_of_eq_ok hrun
  obtain ⟨p, _, hnew⟩ := KPtr.newUnchecked_of_usable (m := m.setEntry f.number e') hf value
  have hptr : KPtr.new env f value m = _ := (bind_of_eq_ok hkernel).trans (bind_of_eq_ok hnew)
  exact ⟨p, _, hptr⟩

/-- `new_l4` returns a table. -/
theorem Ready.newL4 (h : Ready env m) (hf : f.Aligned)
    (hu : m.typing f.number = some (.untyped, 0)) :
    ∃ p m₀, AnyPageTable.newL4 env f m = .ok (.ok p) m₀ ∧ p.Points env f ∧ NewSpace m f m₀ := by
  obtain ⟨t, m₁, hclone⟩ := h.cloneKernel
  obtain ⟨_, _, hcloned⟩ := wp_ok (wp_cloneKernel m) hclone
  have hne : f.number ≠ m.cr3.number := by
    intro heq
    obtain ⟨c, hc, _⟩ := h.cr3_held
    rw [heq, hc] at hu
    cases hu
  have husable := usable_of_covered h.covered h.pmo_aligned hf hu
  obtain ⟨p, m₀, hnew⟩ := kptrNew_of_untyped husable ((hcloned.typing_ne _ hne).trans hu) t.bytes
  have hrun : AnyPageTable.newL4 env f m = .ok (.ok p) m₀ := by
    unfold AnyPageTable.newL4
    rw [bind_of_eq_ok hclone]
    exact hnew
  have hspace := wp_ok (wp_newL4 hf) hrun
  exact ⟨p, m₀, hrun, hspace⟩

theorem NewSpace.taken (hs : NewSpace m f m₀) : Taken m f.number m₀ where
  was := hs.was_untyped
  now := ⟨1, hs.typed⟩
  others n hn := by
    rcases hs.others n hn with heq | ⟨_, hkernel⟩
    · exact .inl heq
    · exact .inr hkernel

/-- **The books open with the new table.** -/
theorem NewSpace.accounted (hs : NewSpace m f m₀) (h : Ready env m) {a : BumpAllocator}
    (hcursor : a.index = f.number)
    (hfirst : ∀ n < f.number, m.typing n ≠ some (.untyped, 0)) :
    Accounted env f.number ((m.freeFrom 0).card - 1) 0 [] a m₀ := by
  obtain ⟨_, hleft⟩ := h.supply.take hs.taken hfirst hcursor
  refine ⟨hs.placing.rooted, ?_, fun _ hn => absurd hn List.not_mem_nil, fun ks => ?_,
    fun page hlow => ?_, List.nodup_nil, hleft.covered, hleft.cursor, hleft.behind, hleft.clean,
    hleft.count⟩
  · exact fun _ _ _ _ hl => absurd hl (Radix.not_link_of_empty fun _ => hs.empty)
  · refine ⟨fun hmem => ?_, fun ⟨hne, n, hn⟩ => absurd (hn.of_empty fun _ => hs.empty).1 hne⟩
    obtain ⟨n, hn, _⟩ := mem_pathsOf.mp hmem
    exact absurd hn List.not_mem_nil
  · refine ⟨fun hsome => ?_, fun hmem => absurd hmem List.not_mem_nil⟩
    obtain ⟨p, hp, _⟩ := hs.placing.complete page hlow hsome
    exact absurd hp List.not_mem_nil

/-- What `load` asserts of its arguments. -/
structure LoadArgs.Accepted (args : LoadArgs) (program : Program) : Prop where
  offset : args.untypedMemoryOffset % pageSize = 0
  length : args.untypedMemoryLength % pageSize = 0
  below : args.untypedMemoryOffset + args.untypedMemoryLength < 0xFFFF800000000000
  image : program.addr % 16 = 0

/-- **The start of `load`**: a frame for the new table. -/
theorem Ready.wp_setup (h : Ready env m) (hfit : args.Fit env) :
    wp (setup env program args)
      (fun r m₀ => (args.Accepted program ∧ 0 < (m.freeFrom 0).card) ∧ ∃ f, f.Aligned ∧
        r.1.Points env f ∧ Accounted env f.number ((m.freeFrom 0).card - 1) 0 [] r.2 m₀)
      (fun _ _ => ¬ (args.Accepted program ∧ 0 < (m.freeFrom 0).card)) m := by
  unfold setup
  simp only [wp_bind]
  refine wp_assert_cases (fun hoffset => ?_) fun hoffset p hall => ?_
  swap
  · exact absurd hall.1.offset (by simpa using hoffset)
  refine wp_assert_cases (fun hlength => ?_) fun hlength p hall => ?_
  swap
  · exact absurd hall.1.length (by simpa using hlength)
  rcases Env.add_fit env (hfit.imp_right And.right) with hadd | ⟨hover, p, hadd⟩
  swap
  · rw [hadd]
    exact fun hall => by have := hall.1.below; omega
  rw [hadd, wp_orPanic_ok]
  refine wp_assert_cases (fun hbelow => ?_) fun hbelow p hall => ?_
  swap
  · exact absurd hall.1.below (by simpa using hbelow)
  refine wp_assert_cases (fun himage => ?_) fun himage p hall => ?_
  swap
  · exact absurd hall.1.image (by simpa using himage)
  have haccepted : args.Accepted program :=
    ⟨by simpa using hoffset, by simpa using hlength, by simpa using hbelow, by simpa using himage⟩
  have hsearch : Searchable BumpAllocator.new m := searchable_of_covered h.covered (Nat.zero_le _)
  refine wp_mono (BumpAllocator.alloc_answers env BumpAllocator.decides_untyped hsearch.addressable
    BumpAllocator.new hsearch.cursor) ?_ fun _ _ hfalse => hfalse.elim
  rintro ⟨r, a⟩ m₁ hr
  cases r with
  | none =>
    obtain ⟨rfl, _, hnone⟩ := hr
    simp only [unwrap, wp_throw]
    rintro ⟨_, hpos⟩
    obtain ⟨n, hn⟩ := Finset.card_pos.mp hpos
    exact hnone n _ (Nat.zero_le n) (Machine.mem_freeFrom.mp hn).2 rfl
  | some f =>
    obtain ⟨hfirst, hcursor, rfl⟩ := hr
    obtain ⟨⟨st, c⟩, ht, hst⟩ := hfirst.isFree
    obtain rfl : st = .untyped := hst
    obtain rfl := h.clean _ c ht
    have hal : f.Aligned := hfirst.aligned
    obtain ⟨p, m₀, hnew, hp, hspace⟩ := h.newL4 hal ht
    have hpos : 0 < (m₁.freeFrom 0).card :=
      Finset.card_pos.mpr ⟨f.number, Machine.mem_freeFrom.mpr ⟨Nat.zero_le _, ht⟩⟩
    simp only [unwrap, wp_pure]
    rw [wp_of_eq_ok hnew]
    refine ⟨⟨haccepted, hpos⟩, f, hal, hp, hspace.accounted h hcursor fun n hn hu => ?_⟩
    exact hfirst.least n _ (Nat.zero_le n) hn hu rfl

end Setup

/-! ## The headers -/

section Load

variable {env : Env} {goblin : Goblin} {program : Program} {args : LoadArgs} {m : Machine}

/-- The image's header table gets past the checks and is read as `phdrs`. -/
structure HeadersRead (env : Env) (goblin : Goblin) (program : Program)
    (phdrs : List ProgramHeader) : Prop where
  start : sizeofEhdr ≤ program.len
  aligned : (program.addr + (goblin.header program.bytes).phoff) % 8 = 0
  table : ∃ phEnd, env.add (goblin.header program.bytes).phoff
    ((goblin.header program.bytes).phentsize * (goblin.header program.bytes).phnum) = .ok phEnd ∧
      phEnd < program.len
  read : phdrsOf goblin program = some phdrs

/-- **The headers are read**, or they cannot be. -/
theorem wp_readHeaders : wp (readHeaders env goblin program)
    (fun r m' => m' = m ∧ HeadersRead env goblin program r.2)
    (fun _ _ => ∀ phdrs, ¬ HeadersRead env goblin program phdrs) m := by
  have hmod : (program.addr + (goblin.header program.bytes).phoff) % 2 ^ 64 % 8 =
      (program.addr + (goblin.header program.bytes).phoff) % 8 := by omega
  unfold readHeaders
  simp only [wp_bind, hmod]
  refine wp_assert_cases (fun hstart => ?_) fun hstart _ _ hread => ?_
  swap
  · exact absurd hread.start (by simpa using hstart)
  cases hadd : env.add (goblin.header program.bytes).phoff
      ((goblin.header program.bytes).phentsize * (goblin.header program.bytes).phnum) with
  | error p =>
    intro phdrs hread
    obtain ⟨_, hok, _⟩ := hread.table
    rw [hadd] at hok
    cases hok
  | ok phEnd =>
    rw [wp_orPanic_ok]
    refine wp_assert_cases (fun hend => ?_) fun hend _ _ hread => ?_
    swap
    · obtain ⟨_, hok, hlt⟩ := hread.table
      obtain rfl := Except.ok.inj (hadd.symm.trans hok)
      exact absurd hlt (by simpa using hend)
    refine wp_assert_cases (fun haligned => ?_) fun haligned _ _ hread => ?_
    swap
    · exact absurd hread.aligned (by simpa using haligned)
    cases hphdrs : goblin.programHeaders program (goblin.header program.bytes).phoff
        (goblin.header program.bytes).phnum with
    | none =>
      intro phdrs hread
      cases hphdrs.symm.trans hread.read
    | some phdrs =>
      exact ⟨rfl, by simpa using hstart, by simpa using haligned,
        ⟨phEnd, hadd, by simpa using hend⟩,
        hphdrs⟩

/-! ## The whole load -/

/-- **What `load` requires**, with `funds` untyped frames at its start: arguments that pass the
asserts, headers that are read, pages that can be placed and are asked for once, and a frame for the
top-level table, for each page of the segments and the stack and for each table below the top. -/
def CanLoad (env : Env) (goblin : Goblin) (program : Program) (args : LoadArgs) (funds : Nat) :
    Prop :=
  args.Accepted program ∧ ∃ phdrs, HeadersRead env goblin program phdrs ∧
    Placeable program args phdrs ∧
    Affords funds (1 + (ownPages args phdrs).length) (allPages args phdrs)

theorem affords_succ {funds own : Nat} {pages : List Nat} (hpos : 0 < funds) :
    Affords (funds - 1) own pages ↔ Affords funds (1 + own) pages := by
  unfold Affords
  exact and_congr_right fun _ => by omega

theorem CanLoad.pos {funds : Nat} (h : CanLoad env goblin program args funds) : 0 < funds := by
  obtain ⟨_, _, _, _, _, hcount⟩ := h
  omega

/-- `load` returns when it can, with the books kept to the end, and panics when it cannot. -/
theorem Ready.wp_load (h : Ready env m) (hfit : args.Fit env)
    (hfits : env.overflowChecks = true ∨ ∀ phdrs, phdrsOf goblin program = some phdrs →
      ∀ ph ∈ phdrs, ph.type = ptLoad → ph.Fits) (hlen : program.len < 2 ^ 64) :
    wp (Process.load env goblin program args)
      (fun proc m' => CanLoad env goblin program args (m.freeFrom 0).card ∧
        ∃ phdrs f b, phdrsOf goblin program = some phdrs ∧ f.Aligned ∧ proc.l4Table.Points env f ∧
          Accounted env f.number ((m.freeFrom 0).card - 1) (ownPages args phdrs).length
            (allPages args phdrs) b m')
      (fun _ _ => ¬ CanLoad env goblin program args (m.freeFrom 0).card) m := by
  unfold Process.load
  refine wp_seq (h.wp_setup hfit) ?_ ?_
  swap
  · exact fun _ _ hnot hcan => hnot ⟨hcan.1, hcan.pos⟩
  rintro ⟨p, a⟩ m₀ ⟨⟨hargs, hpos⟩, f, hal, hp, hacc⟩
  have hmap : directMap env p.inner = .ok f.base.addr := KPtr.directMap_of_points hp
  simp only [hmap, wp_bind]
  rw [wp_orPanic_ok]
  refine wp_mono wp_readHeaders ?_ ?_
  swap
  · rintro _ _ hnone ⟨_, phdrs, hread, _⟩
    exact hnone phdrs hread
  rintro ⟨header, phdrs⟩ m₁ ⟨rfl, hread⟩
  have hphdrs : env.overflowChecks = true ∨ ∀ ph ∈ phdrs, ph.type = ptLoad → ph.Fits :=
    hfits.imp_right fun hall => hall phdrs hread.read
  rw [hal.base_eq]
  refine wp_mono (hacc.wp_place hfit hphdrs hlen hargs.offset hargs.below) ?_ ?_
  · rintro _ m' ⟨hplace, b, hend⟩
    exact ⟨⟨hargs, phdrs, hread, hplace, (affords_succ hpos).mp hend.affords⟩, phdrs, f, b,
      hread.read, hal, hp, hend⟩
  · rintro _ _ hnot ⟨_, phdrs', hread', hplace, hafford⟩
    obtain rfl : phdrs' = phdrs := Option.some.inj (hread'.read.symm.trans hread.read)
    exact hnot ⟨hplace, (affords_succ hpos).mpr hafford⟩

/-- **When a process can be loaded.** `load` returns exactly when `CanLoad` holds of the image, the
arguments and the number of untyped frames, and the frames it has taken then are the ones counted
there. -/
theorem load_returns_iff (h : Ready env m) (hfit : args.Fit env)
    (hfits : env.overflowChecks = true ∨ ∀ phdrs, phdrsOf goblin program = some phdrs →
      ∀ ph ∈ phdrs, ph.type = ptLoad → ph.Fits) (hlen : program.len < 2 ^ 64) :
    ((∃ proc m', Process.load env goblin program args m = .ok proc m') ↔
      CanLoad env goblin program args (m.freeFrom 0).card) ∧
    ∀ proc m', Process.load env goblin program args m = .ok proc m' →
      ∃ phdrs, phdrsOf goblin program = some phdrs ∧
        (m'.freeFrom 0).card +
        (1 + (ownPages args phdrs).length + tableCount (allPages args phdrs)) =
          (m.freeFrom 0).card := by
  have hload : wp (Process.load env goblin program args) _ _ m := h.wp_load hfit hfits hlen
  refine ⟨⟨fun ⟨proc, m', hok⟩ => (wp_ok hload hok).1, fun hcan => ?_⟩, fun proc m' hok => ?_⟩
  · have hreturns := wp_mono hload (fun _ _ _ => trivial) fun _ _ hnot => hnot hcan
    obtain ⟨proc, m', hok, _⟩ := exists_of_wp hreturns
    exact ⟨proc, m', hok⟩
  · obtain ⟨hcan, phdrs, _, _, hphdrs, _, _, hend⟩ := wp_ok hload hok
    have hpos := hcan.pos
    have hspent := hend.spent
    exact ⟨phdrs, hphdrs, by omega⟩

end Load

/-- A kernel that has just built its retype table is ready, if CR3's frame is one of the
bootloader's. -/
theorem Ready.of_new {env : Env} {m : Machine} {memoryMap : List MapEntry}
    (htable : RetypeTable.new env memoryMap = .ok (some m.retypeMap))
    (hcovers : DirectMapCovers env memoryMap) (hpmo : env.pmo % pageSize = 0)
    (haligned : m.cr3.Aligned) {c : Nat} (hheld : m.typing m.cr3.number = some (.kernel, c)) :
    Ready env m := by
  have hentry : ∀ {n : Nat} {t : State × Nat}, m.typing n = some t →
      t = (.unavailable, 0) ∨ t = (.untyped, 0) ∨ t = (.kernel, 1) := by
    intro n t ht
    obtain ⟨e, he, rfl⟩ := Machine.entry_of_typing ht
    exact new_entry_cases htable he
  refine ⟨?_, hpmo, fun n c hn => ?_, haligned, c, hheld, ?_⟩
  · rintro ⟨n, hn, hge⟩
    have hend := hcovers _ htable
    have hlast : n * frameSize < m.retypeMap.length * frameSize :=
      Nat.mul_lt_mul_of_pos_right hn (by decide)
    omega
  · rcases hentry hn with heq | heq | heq <;> cases heq
    rfl
  · rcases hentry hheld with heq | heq | heq <;> cases heq
    decide

/-- The small program needs 21 frames. -/
theorem canLoad_small {funds : Nat} (h : 21 ≤ funds) :
    CanLoad Env.dev (.always [smallSegment]) smallProgram (.boot 0x1b000) funds := by
  have hneed : 1 + (ownPages (.boot 0x1b000) [smallSegment]).length +
      tableCount (allPages (.boot 0x1b000) [smallSegment]) = 21 := by decide +kernel
  refine ⟨⟨by decide, by decide, by decide, by decide⟩, [smallSegment],
    ⟨by decide, by decide, ⟨120, by decide, by decide⟩, rfl⟩,
    ⟨fun ph hph _ => ?_, by decide, by decide, by decide⟩, by decide +kernel, by omega⟩
  obtain rfl := List.mem_singleton.mp hph
  exact ⟨by decide, by decide, by decide, by decide, by decide⟩

/-- Of 24 frames, three are left. With the segment twice, there is a page that is asked for twice.
-/
theorem load_returns_iff_booted :
    (∃ proc m', Process.load Env.dev (.always [smallSegment]) smallProgram (.boot 0x1b000)
      bootedSpace = .ok proc m' ∧ (m'.freeFrom 0).card = 3) ∧
    ¬ ∃ proc m', Process.load Env.dev (.always [smallSegment, smallSegment]) smallProgram
      (.boot 0x1b000) bootedSpace = .ok proc m' := by
  have hready : Ready Env.dev bootedSpace :=
    Ready.of_new bootedSpace_new bootedMap_covered (by decide) (by decide) (c := 1) (by decide)
  have hfunds : (bootedSpace.freeFrom 0).card = 24 := by decide +kernel
  have hfit : (LoadArgs.boot 0x1b000).Fit Env.dev := LoadArgs.boot_fit Env.dev (by decide)
  have hlen : smallProgram.len < 2 ^ 64 := by decide
  constructor
  · obtain ⟨proc, m', hok⟩ := (load_returns_iff hready hfit (Or.inl rfl) hlen).1.mpr
      (canLoad_small (hfunds ▸ by decide))
    obtain ⟨phdrs, hread, hleft⟩ :=
      (load_returns_iff hready hfit (Or.inl rfl) hlen).2 proc m' hok
    obtain rfl : [smallSegment] = phdrs := Option.some.inj hread
    have hneed : 1 + (ownPages (.boot 0x1b000) [smallSegment]).length +
        tableCount (allPages (.boot 0x1b000) [smallSegment]) = 21 := by decide +kernel
    exact ⟨proc, m', hok, by omega⟩
  · intro hreturns
    obtain ⟨_, phdrs, hread, _, hnodup, _⟩ :=
      (load_returns_iff hready hfit (Or.inl rfl) hlen).1.mp hreturns
    obtain rfl : [smallSegment, smallSegment] = phdrs := Option.some.inj hread.read
    exact absurd hnodup (by decide +kernel)

end Harmony
