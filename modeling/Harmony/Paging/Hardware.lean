import Harmony.Lib.Mmu
import Harmony.Paging.Walk

/-!
# The tables as the processor reads them

`Lib.Mmu` says what user code reaches through the tables in memory; the kernel reads and writes the
same words as `PageTableEntry`. Where no table of the kernel's tree is taken for a huge page, the
processor's walk is the kernel's, with the flags of all four entries on it
(`mmuWalk_eq`), and the tables the processor reads are those of the tree (`visited_tables`).
-/

namespace Harmony

open Lib

/-! ## Entries -/

/-- The flags let user code through. -/
def PageTableFlags.permits (flags : PageTableFlags) (a : Mmu.Access) : Bool :=
  flags.contains .present && flags.contains .userAccessible &&
    a.allowed (flags.contains .writable) (flags.contains .noExecute)

section Entries

variable {w : BitVec 64} {frame : RawFrame} {flags : PageTableFlags}

theorem and_twoPow_beq (w : BitVec 64) {i : Nat} (hi : i < 64) :
    (w &&& BitVec.twoPow 64 i == BitVec.twoPow 64 i) = w.getLsbD i := by
  rw [BitVec.and_twoPow]
  cases h : w.getLsbD i with
  | true => simp
  | false =>
    have hne : BitVec.twoPow 64 i ≠ 0#64 := by
      intro h0
      have hbit := congrArg (BitVec.getLsbD · i) h0
      simp [hi] at hbit
    simpa using hne.symm

/-- A flag of an entry is a bit of its word. -/
theorem contains_of_decode (h : PageTableEntry.decode w = some (frame, flags)) {b : PageTableFlags}
    {i : Nat} (hb : b.bits = BitVec.twoPow 64 i) (hi : i < 64)
    (hflag : flagsMask.getLsbD i = true) : flags.contains b = w.getLsbD i := by
  unfold PageTableEntry.decode at h
  split_ifs at h
  cases h
  unfold PageTableFlags.contains
  rw [hb, and_twoPow_beq _ hi, BitVec.getLsbD_and, hflag, Bool.and_true]

/-- The processor and the kernel read the same rights. -/
theorem permits_of_decode (h : PageTableEntry.decode w = some (frame, flags)) (a : Mmu.Access) :
    Mmu.permits a w = flags.permits a := by
  unfold Mmu.permits PageTableFlags.permits Mmu.present Mmu.user Mmu.writable Mmu.executeDisable
  rw [contains_of_decode h (b := .present) (i := 0) rfl (by decide) (by decide),
    contains_of_decode h (b := .userAccessible) (i := 2) rfl (by decide) (by decide),
    contains_of_decode h (b := .writable) (i := 1) rfl (by decide) (by decide),
    contains_of_decode h (b := .noExecute) (i := 63) rfl (by decide) (by decide)]

theorem large_of_decode (h : PageTableEntry.decode w = some (frame, flags)) :
    Mmu.large w = flags.contains .hugePage :=
  (contains_of_decode h (b := .hugePage) (i := 7) rfl (by decide) (by decide)).symm

theorem base_of_decode (h : PageTableEntry.decode w = some (frame, flags)) :
    Mmu.base w = frame.number * frameSize := by
  rw [← (PageTableEntry.aligned_of_decode h).base_eq]
  unfold PageTableEntry.decode at h
  split_ifs at h
  cases h
  rfl

theorem permits_of_empty (a : Mmu.Access) (h : PageTableEntry.decode w = none) :
    Mmu.permits a w = false := by
  obtain rfl := PageTableEntry.decode_eq_none.mp h
  exact Mmu.permits_of_absent a rfl

end Entries

/-! ## Walks -/

section Walks

variable {mem : Mem} {v : VirtAddr} {scope : Fin 512 → Prop} {root : Nat}

theorem canonical_of_mmu {v : Nat} (h : Mmu.canonical v = true) : VirtAddr.newTruncate v = v := by
  refine canonical_iff.mpr ?_
  unfold Mmu.canonical at h
  simpa using h

theorem mmu_canonical (v : VirtAddr) : Mmu.canonical v.addr = true := by
  unfold Mmu.canonical
  simpa using canonical_iff.mp v.canonical

/-- The index of an address is its page's. -/
theorem mmuIndex_eq (v : VirtAddr) (lower : Nat) :
    Mmu.index v.addr (lower + 1) = v.page.key (lower + 1) := by
  show v.addr / 2 ^ (12 + 9 * lower) % 512 = v.page.base.pageTableIndex (lower + 1)
  rw [VirtAddr.pageTableIndex_eq]
  show _ = v.addr / pageSize * pageSize / 2 ^ (12 + lower * 9) % 512
  rw [Nat.mul_comm 9 lower, Nat.pow_add, ← Nat.div_div_eq_div_mul, ← Nat.div_div_eq_div_mul,
    show (2 : Nat) ^ 12 = pageSize from rfl, Nat.mul_div_cancel _ (by decide)]

/-- The entry the processor reads is the kernel's. -/
theorem decode_mmuEntry (mem : Mem) (v : VirtAddr) (lower n : Nat) :
    PageTableEntry.decode (Mmu.entry mem v.addr (lower + 1) (n * frameSize)) =
      entryOf mem n (v.page.key (lower + 1)) := by
  unfold Mmu.entry entryOf
  rw [mmuIndex_eq]

/-- The walk is on its way down a tree of tables: the keys `ks` behind it, `level` levels to go. -/
structure OnTree (scope : Fin 512 → Prop) (root : Nat) (mem : Mem) (v : VirtAddr) (level n : Nat)
    (ks : List (Fin 512)) : Prop where
  keys : ks ++ v.page.keysFrom level = v.page.keys
  table : level = 0 ∨ TableAt scope root mem ks n

theorem OnTree.start : OnTree scope root mem v 4 root [] :=
  ⟨rfl, .inr (Radix.node_root (by decide))⟩

variable {lower n : Nat} {ks : List (Fin 512)} {e : Mapping}

theorem OnTree.link (h : OnTree scope root mem v (lower + 1) n ks) (hv : scope (v.page.key 4))
    (hlower : lower ≠ 0) (he : entryOf mem n (v.page.key (lower + 1)) = some e) :
    LinkAt scope root mem ks n (v.page.key (lower + 1)) e := by
  have hn := h.table.resolve_left (by omega)
  have hlen : ks.length + (lower + 1) = 4 := by
    have hkeys := congrArg List.length h.keys
    rwa [List.length_append, Page.length_keysFrom, Page.length_keys] at hkeys
  refine ⟨by omega, ?_, hn, he⟩
  cases ks with
  | nil =>
    obtain rfl : lower = 3 := by simpa using hlen
    exact hv
  | cons k ks => exact hn.2.1

theorem OnTree.down (h : OnTree scope root mem v (lower + 1) n ks) (hv : scope (v.page.key 4))
    (he : entryOf mem n (v.page.key (lower + 1)) = some e) :
    OnTree scope root mem v lower (target e) (ks ++ [v.page.key (lower + 1)]) := by
  refine ⟨?_, ?_⟩
  · rw [← h.keys, List.append_assoc]
    rfl
  · by_cases hlower : lower = 0
    · exact .inl hlower
    · exact .inr (h.link hv hlower he).node

/-- Without huge pages a walk down the tree never ends above level 1. -/
theorem OnTree.not_endsAt (h : OnTree scope root mem v (lower + 1) n ks) (hv : scope (v.page.key 4))
    (hno : NoHuge scope root mem) (he : entryOf mem n (v.page.key (lower + 1)) = some e) :
    Mmu.endsAt (lower + 1) (Mmu.entry mem v.addr (lower + 1) (n * frameSize)) = false := by
  unfold Mmu.endsAt
  by_cases hlower : lower = 0
  · subst hlower
    rfl
  · have hdecode := (decode_mmuEntry mem v lower n).trans he
    rw [large_of_decode hdecode, hno ks n _ e (h.link hv hlower he), Bool.and_false]

/-- What the processor makes of the entries of a walk that starts in table `n`. -/
def granted (a : Mmu.Access) (v n : Nat) (es : List Mapping) : Option Nat :=
  if es.all fun e => e.2.permits a then some (Radix.endOf target n es * frameSize + v % pageSize)
  else none

theorem granted_cons (a : Mmu.Access) (v n : Nat) (e : Mapping) (es : List Mapping) :
    granted a v n (e :: es) = if e.2.permits a then granted a v (target e) es else none := by
  unfold granted
  rw [List.all_cons]
  cases e.2.permits a <;> rfl

theorem mmuWalkFrom_eq (hv : scope (v.page.key 4)) (hno : NoHuge scope root mem) (a : Mmu.Access)
    {level : Nat} : ∀ {n : Nat} {ks : List (Fin 512)}, OnTree scope root mem v level n ks →
      Mmu.walkFrom mem a v.addr level (n * frameSize) =
        (walkFrom mem v.page level (n * frameSize)).bind (granted a v.addr n) := by
  induction level with
  | zero => exact fun _ => rfl
  | succ lower ih =>
    intro n ks h
    have hsoft : PageTableEntry.decode
        (load64 mem (n * frameSize + 8 * v.page.base.pageTableIndex (lower + 1))) =
          entryOf mem n (v.page.key (lower + 1)) := rfl
    have hdecode := decode_mmuEntry mem v lower n
    unfold walkFrom
    rw [hsoft]
    cases he : entryOf mem n (v.page.key (lower + 1)) with
    | none => exact Mmu.walkFrom_of_closed (permits_of_empty a (hdecode.trans he))
    | some e =>
      have hrest := ih (h.down hv he)
      obtain ⟨frame, flags⟩ := e
      have hbase : frame.base.addr = frame.number * frameSize :=
        (entryOf_aligned he).base_eq
      cases hp : flags.permits a with
      | false =>
        rw [Mmu.walkFrom_of_closed ((permits_of_decode (hdecode.trans he) a).trans hp)]
        cases hw : walkFrom mem v.page lower (frame.number * frameSize) with
        | none => simp [hbase, hw]
        | some es => simp [hbase, hw, granted_cons, hp]
      | true =>
        unfold Mmu.walkFrom
        simp only [permits_of_decode (hdecode.trans he) a, hp, h.not_endsAt hv hno he,
          base_of_decode (hdecode.trans he), if_true, Bool.false_eq_true, if_false]
        refine hrest.trans ?_
        cases hw : walkFrom mem v.page lower (frame.number * frameSize) with
        | none => simp [hbase, hw, target]
        | some es => simp [hbase, hw, target, granted_cons, hp]

/-- **The processor's walk is the kernel's**, where every entry on it lets the access through. -/
theorem mmuWalk_eq {l4 : RawFrame} (hl4 : l4.Aligned) (hv : scope (v.page.key 4))
    (hno : NoHuge scope l4.number mem) (a : Mmu.Access) :
    Mmu.walk mem a v.addr l4.base.addr =
      (walk mem l4 v.page).bind (granted a v.addr l4.number) := by
  unfold Mmu.walk walk
  rw [if_pos (mmu_canonical v), hl4.base_eq]
  exact mmuWalkFrom_eq hv hno a OnTree.start

/-- **The processor reads tables of the tree.** -/
theorem visited_tables (hv : scope (v.page.key 4)) (a : Mmu.Access) {level : Nat} :
    ∀ {n : Nat} {ks : List (Fin 512)}, OnTree scope root mem v level n ks →
      ∀ t ∈ Mmu.visitedFrom mem a v.addr level (n * frameSize),
        ∃ ks' n', TableAt scope root mem ks' n' ∧ t = n' * frameSize := by
  induction level with
  | zero => exact fun _ t ht => absurd ht List.not_mem_nil
  | succ lower ih =>
    intro n ks h t ht
    have hdecode := decode_mmuEntry mem v lower n
    rcases List.mem_cons.mp ht with rfl | ht
    · exact ⟨ks, n, h.table.resolve_left (by omega), rfl⟩
    cases he : entryOf mem n (v.page.key (lower + 1)) with
    | none =>
      simp only [permits_of_empty a (hdecode.trans he), Bool.false_and, Bool.false_eq_true,
        if_false] at ht
      exact absurd ht List.not_mem_nil
    | some e =>
      split_ifs at ht
      · rw [base_of_decode (hdecode.trans he)] at ht
        exact ih (h.down hv he) t ht
      · exact absurd ht List.not_mem_nil

end Walks

end Harmony
