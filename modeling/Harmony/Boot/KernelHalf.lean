import Harmony.Boot.Image

/-!
# The kernel half

All address spaces share the tables below the entries 256 to 511 of the boot L4 table, so a stray
write there is one in every address space. `load` copies those entries and writes nothing below
them: wherever it stops, and whatever the image says.

The bootloader is outside the source. `BootTablesReserved` is what its protocol promises: its page
tables lie in no `USABLE` entry of the memory map. A table is what is reached through entries
without `HUGE_PAGE`; the frames a huge page maps are memory, usable or not.

* `NewSpace.upper_word`: the new table's upper half is the boot table's.
* `NewSpace.boot_kept`: a boot table's bytes stay.
* `kernel_half_untouched`: both, with the pages mapped, at every point `load` stops.
-/

namespace Harmony

open Lib

/-- The part of an L4 table that all address spaces share. -/
def upperHalf (k : Fin 512) : Prop := 256 ≤ (k : Nat)

/-- Entry `k` of table `n` if it can lead to a table: there, and no huge page. -/
def tableEntry (mem : Mem) (n : Nat) (k : Fin 512) : Option Mapping :=
  (entryOf mem n k).filter fun e => !e.2.contains .hugePage

/-- The table in frame number `n` is reached from the upper half of the L4 table in frame number
`root`, along the keys `ks`; the L4 table itself is, along none. -/
def UpperTable (root : Nat) (mem : Mem) (ks : List (Fin 512)) (n : Nat) : Prop :=
  Radix.Node target (tableEntry mem) root 4 upperHalf ks n

/-- A table of the address space the kernel booted in. -/
def BootTable (m : Machine) (ks : List (Fin 512)) (n : Nat) : Prop :=
  UpperTable m.cr3.number m.mem ks n

/-- The bootloader's page tables are in no `USABLE` memory. -/
def BootTablesReserved (memoryMap : List MapEntry) (m : Machine) : Prop :=
  ∀ ks n, BootTable m ks n → ∀ e ∈ memoryMap, e.entryType = .usable → ¬ e.Holds n

/-- The arguments `kmain` gives: ten stack pages, the window at `UNTYPED_MEMORY_OFFSET`, over all
memory. -/
def LoadArgs.boot (memoryLimit : Nat) : LoadArgs where
  stackPages := 10
  untypedMemoryOffset := 0x700000000000
  untypedMemoryLength := memoryLimit

theorem LoadArgs.boot_fit (env : Env) {limit : Nat} (h : limit ≤ 2 ^ 52) :
    (LoadArgs.boot limit).Fit env := by
  right
  simp only [LoadArgs.boot, pageSize]
  omega

section Kept

variable {env : Env} {m m₀ m' : Machine} {l4 : RawFrame} {memoryMap : List MapEntry}
  {ks : List (Fin 512)} {n : Nat}

/-- A boot table's frame does not start out untyped. -/
theorem BootTable.not_untyped (h : BootTable m ks n)
    (hnew : RetypeTable.new env memoryMap = .ok (some m.retypeMap))
    (hres : BootTablesReserved memoryMap m) (c : Nat) : m.typing n ≠ some (.untyped, c) := by
  intro hty
  obtain ⟨x, hx, hget⟩ := Option.map_eq_some_iff.mp hty
  obtain ⟨e, he, husable, hin⟩ := new_untyped_usable hnew hx (by rw [hget])
  exact hres ks n h e he husable hin

/-- Making the new table leaves the other frames typed or untyped as they were. -/
theorem NewSpace.not_untyped (hs : NewSpace m l4 m₀) (hn : m.typing n ≠ some (.untyped, 0)) :
    n ≠ l4.number ∧ m₀.typing n ≠ some (.untyped, 0) := by
  have hne : n ≠ l4.number := by
    rintro rfl
    exact hn hs.was_untyped
  refine ⟨hne, ?_⟩
  rcases hs.others n hne with heq | ⟨_, c, c', _, hc'⟩
  · rw [heq]
    exact hn
  · rw [hc']
    simp

/-- **A frame that was not untyped keeps its bytes.** -/
theorem NewSpace.boot_kept (hs : NewSpace m l4 m₀) (hu : Untouched l4.number m₀ m')
    (hn : m.typing n ≠ some (.untyped, 0)) {x : Nat} (hx : x / frameSize = n) :
    m'.mem x = m.mem x := by
  obtain ⟨hne, hty⟩ := hs.not_untyped hn
  subst hx
  exact (hu.outside x hty fun h => hne h.1).trans (hs.mem x hne)

/-- **The new table's upper half is the boot table's**, word for word. -/
theorem NewSpace.upper_word (hs : NewSpace m l4 m₀) (hu : Untouched l4.number m₀ m') {i : Nat}
    (hge : 256 ≤ i) (hlt : i < 512) :
    load64 m'.mem (l4.number * frameSize + 8 * i) =
      load64 m.mem (m.cr3.number * frameSize + 8 * i) := by
  have hkept : load64 m'.mem (l4.number * frameSize + 8 * i) =
      load64 m₀.mem (l4.number * frameSize + 8 * i) := by
    refine load64_congr fun j hj => ?_
    have hdiv : (l4.number * frameSize + 8 * i + j) / frameSize = l4.number := by
      simp only [frameSize]
      omega
    refine hu.outside _ ?_ ?_
    · rw [hdiv, hs.typed]
      simp
    · rintro ⟨_, hlow⟩
      simp only [frameSize] at hlow
      omega
  rw [hkept, hs.table i hlt]
  unfold kernelHalf
  rw [if_pos ⟨hge, hlt⟩]

theorem NewSpace.upper_entry (hs : NewSpace m l4 m₀) (hu : Untouched l4.number m₀ m')
    {k : Fin 512} (hk : upperHalf k) :
    entryOf m'.mem l4.number k = entryOf m.mem m.cr3.number k :=
  congrArg PageTableEntry.decode (hs.upper_word hu hk k.isLt)

end Kept

/-! ## Wherever `load` stops -/

/-- Between `m` and `m'` the kernel half has been left alone. -/
structure KernelHalfKept (m m' : Machine) : Prop where
  cr3 : m'.cr3 = m.cr3
  /-- No boot table has been modified. -/
  tables : ∀ ks n, BootTable m ks n → ∀ x, x / frameSize = n → m'.mem x = m.mem x
  /-- Pages were mapped in the lower half only, and a new table has the boot table's upper half. -/
  events : ∃ es, m'.trace = es ++ m.trace ∧
    (∀ page : Page, .mapTo page ∈ es → page.base.addr < 2 ^ 47) ∧
    ∀ f : RawFrame, .construct f ∈ es → ∀ i, 256 ≤ i → i < 512 →
      load64 m'.mem (f.base.addr + 8 * i) = load64 m'.mem (m'.cr3.base.addr + 8 * i)

section Stops

variable {env : Env} {goblin : Goblin} {program : Program} {m m₀ m' : Machine} {l4 : RawFrame}
  {memoryMap : List MapEntry}

theorem Quiet.kernelHalfKept (h : Quiet m m') : KernelHalfKept m m' where
  cr3 := h.cr3
  tables _ _ _ x _ := congrFun h.mem x
  events := ⟨[], h.trace, fun _ hp => absurd hp (by simp), fun _ hf => absurd hf (by simp)⟩

theorem NewSpace.kernelHalfKept (hs : NewSpace m l4 m₀) (hu : Untouched l4.number m₀ m')
    (hnew : RetypeTable.new env memoryMap = .ok (some m.retypeMap))
    (hres : BootTablesReserved memoryMap m) : KernelHalfKept m m' := by
  have hcr3 : m'.cr3 = m.cr3 := hu.cr3.trans hs.cr3
  have htables : ∀ ks n, BootTable m ks n → ∀ x, x / frameSize = n → m'.mem x = m.mem x :=
    fun ks n hn x hx => hs.boot_kept hu (hn.not_untyped hnew hres 0) hx
  refine ⟨hcr3, htables, ?_⟩
  obtain ⟨es, hes, hall⟩ := hu.events
  refine ⟨es ++ [.construct l4], ?_, ?_, ?_⟩
  · rw [hes, hs.trace, List.append_assoc]
    rfl
  · intro page hp
    rcases List.mem_append.mp hp with hp | hp
    · obtain ⟨q, hq, hlow⟩ := hall _ hp
      obtain rfl := Event.mapTo.inj hq
      exact page.index_four_lt_iff.mp hlow
    · exact absurd (List.mem_singleton.mp hp) (by simp)
  · intro f hf i hge hlt
    -- the only object made is the L4 table; every later event is a call of `map_to`
    rcases List.mem_append.mp hf with hf | hf
    · obtain ⟨q, hq, _⟩ := hall _ hf
      exact absurd hq (by simp)
    · obtain rfl := Event.construct.inj (List.mem_singleton.mp hf)
      rw [hcr3, hs.aligned.base_eq, hs.cr3_aligned.base_eq, hs.upper_word hu hge hlt]
      refine (load64_congr fun j hj => htables [] _ (Radix.node_root (by decide)) _ ?_).symm
      simp only [frameSize]
      omega

/-- **The kernel half is never touched.** For every image and every list of program headers, in
either profile, wherever `load` stops; and the lower half was empty when loading began. -/
theorem kernel_half_untouched {limit : Nat} (hlimit : limit ≤ 2 ^ 52)
    (hnew : RetypeTable.new env memoryMap = .ok (some m.retypeMap))
    (hres : BootTablesReserved memoryMap m) :
    KernelHalfKept m (finalState (Process.load env goblin program (.boot limit) m)) ∧
      ∀ p a m₀, setup env program (.boot limit) m = .ok (p, a) m₀ →
        ∃ f, p.Points env f ∧ m₀.trace = .construct f :: m.trace ∧
          ∀ i < 256, load64 m₀.mem (f.base.addr + 8 * i) = 0 := by
  constructor
  · refine wp_finalState (wp_mono (wp_load (LoadArgs.boot_fit env hlimit)) ?_ ?_)
    · rintro proc m' ⟨l4, m₀, phdrs, placed, h⟩
      exact h.space.kernelHalfKept h.placing.toUntouched hnew hres
    · rintro _ m' (hq | ⟨l4, m₀, hs, hu⟩)
      · exact hq.kernelHalfKept
      · exact hs.kernelHalfKept hu hnew hres
  · intro p a m₀ hok
    obtain ⟨_, f, hp, hs⟩ := wp_ok wp_setup hok
    refine ⟨f, hp, hs.trace, fun i hi => ?_⟩
    rw [hs.aligned.base_eq, hs.table i (by omega)]
    unfold kernelHalf
    rw [if_neg (by omega)]

end Stops

/-- The memory map of a machine of 27 frames, with the boot tables in frames 1 and 2. -/
def bootedMap : List MapEntry :=
  [⟨0, 0x1000, .usable⟩, ⟨0x1000, 0x2000, .bootloaderReclaimable⟩, ⟨0x3000, 0x18000, .usable⟩]

theorem bootedSpace_new :
    RetypeTable.new Env.dev bootedMap = .ok (some bootedSpace.retypeMap) := by
  decide +kernel

/-- Frame 1 leads to frame 2 and to no other, and frame 2 leads nowhere. -/
theorem bootedSpace_tables {ks : List (Fin 512)} {n : Nat} (h : BootTable bootedSpace ks n) :
    n = 1 ∨ n = 2 := by
  have hfirst : ∀ k : Fin 512,
      (tableEntry bootedSpace.mem 1 k).all fun e => target e == 2 := by decide +kernel
  have hsecond : ∀ k : Fin 512, tableEntry bootedSpace.mem 2 k = none := by decide +kernel
  cases ks with
  | nil => exact Or.inl h.eq_root
  | cons k ks =>
    obtain ⟨_, _, es, htr, hend⟩ := h
    rw [Radix.trail_cons] at htr
    obtain ⟨e, he, htr⟩ := Option.bind_eq_some_iff.mp htr
    obtain ⟨rest, hrest, rfl⟩ := Option.map_eq_some_iff.mp htr
    have htarget : target e = 2 := by
      have hall := hfirst k
      rw [show tableEntry bootedSpace.mem 1 k = some e from he] at hall
      simpa using hall
    rw [htarget] at hrest
    cases ks with
    | nil =>
      obtain rfl : rest = [] := by simpa using hrest.symm
      exact Or.inr (hend.symm.trans htarget)
    | cons j ks =>
      rw [Radix.trail_cons, hsecond j] at hrest
      exact absurd hrest (by simp)

theorem bootedSpace_reserved : BootTablesReserved bootedMap bootedSpace := by
  intro ks n hn e he husable hin
  simp only [bootedMap, List.mem_cons, List.not_mem_nil, or_false] at he
  rcases bootedSpace_tables hn with rfl | rfl <;> rcases he with rfl | rfl | rfl <;>
    simp_all [MapEntry.Holds, frameSize]

/-- The small program is loaded from where the kernel is booted. -/
theorem load_booted : ∃ proc m',
    Process.load Env.dev (.always [smallSegment]) smallProgram (.boot 0x1b000) bootedSpace =
      .ok proc m' := by
  have hrun : wp (Process.load Env.dev (.always [smallSegment]) smallProgram (.boot 0x1b000))
      (fun _ _ => True) (fun _ _ => False) bootedSpace := by decide +kernel
  obtain ⟨proc, m', hok, _⟩ := exists_of_wp hrun
  exact ⟨proc, m', hok⟩

theorem kernel_half_untouched_booted : ∃ proc m',
    Process.load Env.dev (.always [smallSegment]) smallProgram (.boot 0x1b000) bootedSpace =
      .ok proc m' ∧ KernelHalfKept bootedSpace m' := by
  obtain ⟨proc, m', hok⟩ := load_booted
  have hkept : KernelHalfKept bootedSpace (finalState (Process.load Env.dev
      (.always [smallSegment]) smallProgram (.boot 0x1b000) bootedSpace)) :=
    (kernel_half_untouched (by decide) bootedSpace_new bootedSpace_reserved).1
  rw [hok] at hkept
  exact ⟨proc, m', hok, hkept⟩

end Harmony
