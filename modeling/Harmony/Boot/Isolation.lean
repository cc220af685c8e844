import Harmony.Boot.KernelHalf
import Mathlib.Data.List.Pairwise

/-!
# User isolation

What the process can reach once it is loaded. The lower half of its address space holds its own
pages and a window over all of memory, page tables and kernel frames included; only the flags and
the retype table keep them apart.

* `Loaded.user_placement`: a page the process can access is one that was placed for it.
* `load_isolates`: such pages are `User` frames, each mapped once, and none is a page table.
-/

namespace Harmony

open Lib

/-- The process can access `page`, which maps frame `f`. -/
def UserMapped (mem : Mem) (l4 : RawFrame) (page : Page) (f : RawFrame) : Prop :=
  ∃ es flags, walk mem l4 page = some es ∧ userAccessible es = true ∧
    es.getLast? = some (f, flags)

/-- The upper half of the boot L4 table gives no user access. -/
def BootKernelOnly (m : Machine) : Prop :=
  ∀ k, upperHalf k → ∀ e, entryOf m.mem m.cr3.number k = some e →
    e.2.contains .userAccessible = false

/-- Frame number `n` holds a page table of the tree under `l4`, the shared half included. -/
def HoldsTable (l4 : RawFrame) (mem : Mem) (n : Nat) : Prop :=
  ∃ ks, Radix.Node target (tableEntry mem) l4.number 4 (fun _ => True) ks n

/-- What the process can access is its own, and nobody else's. -/
structure Isolated (l4 : RawFrame) (m : Machine) : Prop where
  user : ∀ page f, UserMapped m.mem l4 page f → ∃ c, m.typing f.number = some (.user, c) ∧ 1 ≤ c
  unshared : ∀ page page' f f', UserMapped m.mem l4 page f → UserMapped m.mem l4 page' f' →
    f.number = f'.number → page = page'
  others : ∀ page f st c, st ≠ .user → m.typing f.number = some (st, c) →
    ¬ UserMapped m.mem l4 page f
  tables : ∀ page f, UserMapped m.mem l4 page f → ¬ HoldsTable l4 m.mem f.number

section Isolation

variable {env : Env} {goblin : Goblin} {program : Program} {args : LoadArgs} {m m' m₀ : Machine}
  {proc : Process} {l4 : RawFrame} {phdrs : List ProgramHeader} {placed : List Placement}
  {memoryMap : List MapEntry} {page : Page} {f : RawFrame}

theorem tableEntry_le (mem : Mem) (n : Nat) (k : Fin 512) (e : Mapping)
    (h : tableEntry mem n k = some e) : entryOf mem n k = some e :=
  (Option.filter_eq_some_iff.mp h).1

theorem tableEntry_congr {mem mem' : Mem} {n : Nat} (h : ∀ x, x / frameSize = n → mem' x = mem x)
    (k : Fin 512) : tableEntry mem' n k = tableEntry mem n k := by
  unfold tableEntry
  rw [entryOf_congr h]

namespace Loaded

/-- The upper half of the address space is closed to the process. -/
theorem low_of_user (h : Loaded env goblin program args m proc m' l4 m₀ phdrs placed)
    (hboot : BootKernelOnly m) (hu : UserMapped m'.mem l4 page f) : lowHalf (page.key 4) := by
  obtain ⟨es, flags, hw, huser, _⟩ := hu
  by_contra hlow
  have hup : upperHalf (page.key 4) := Nat.le_of_not_lt hlow
  rw [walk_eq_trail _ h.space.aligned] at hw
  unfold Page.keys Page.keysFrom trailOf at hw
  rw [Radix.trail_cons] at hw
  obtain ⟨e, he, hw⟩ := Option.bind_eq_some_iff.mp hw
  obtain ⟨rest, _, rfl⟩ := Option.map_eq_some_iff.mp hw
  rw [h.space.upper_entry h.placing.toUntouched hup] at he
  have hno := hboot _ hup e he
  have hyes := List.all_eq_true.mp huser e List.mem_cons_self
  rw [hno] at hyes
  exact absurd hyes (by simp)

/-- **A page the process can access was placed for it.** -/
theorem user_placement (h : Loaded env goblin program args m proc m' l4 m₀ phdrs placed)
    (hboot : BootKernelOnly m) (hu : UserMapped m'.mem l4 page f) :
    ∃ p ∈ placed, p.page = page ∧ p.frame = f ∧ p.content.owned = true := by
  have hlow := h.low_of_user hboot hu
  obtain ⟨es, flags, hw, huser, hlast⟩ := hu
  have hsome : trailOf m'.mem l4.number page.keys ≠ none := by
    rw [← walk_eq_trail _ h.space.aligned, hw]
    simp
  obtain ⟨p, hp, rfl⟩ := h.placing.complete page hlow hsome
  obtain ⟨ps, hw', _⟩ := h.walk_eq hp
  obtain rfl := Option.some.inj (hw.symm.trans hw')
  have hframe : p.frame = f := by
    rw [List.getLast?_concat] at hlast
    exact congrArg Prod.fst (Option.some.inj hlast)
  refine ⟨p, hp, rfl, hframe, ?_⟩
  rcases h.laid.sound p hp with ⟨ph, _, _, _, _, hseg⟩ | ⟨i, _, hst⟩ | ⟨i, _, hwin⟩
  · obtain ⟨bytes, hdata, _⟩ := hseg.content
    rw [hdata]
    rfl
  · rw [hst.content]
    rfl
  · -- a window page's leaf has no user access
    have hleaf : p.flags.contains .userAccessible = true :=
      List.all_eq_true.mp huser (p.frame, p.flags) (by simp)
    rw [hwin.flags] at hleaf
    exact absurd hleaf (by decide)

/-- Two pages the process can access on one frame are one page. -/
theorem unshared (h : Loaded env goblin program args m proc m' l4 m₀ phdrs placed)
    {p q : Placement} (hp : p ∈ placed) (hq : q ∈ placed) (hpo : p.content.owned = true)
    (hqo : q.content.owned = true) (hn : p.frame.number = q.frame.number) : p = q := by
  by_contra hne
  have : Std.Symm fun p q : Placement =>
      p.content.owned = true → q.content.owned = true → p.frame ≠ q.frame :=
    ⟨fun _ _ hpq hqo hpo heq => hpq hpo hqo heq.symm⟩
  refine h.placing.frames.forall hp hq hne hpo hqo ?_
  exact RawFrame.ext_number (h.placing.holds p hp).aligned (h.placing.holds q hq).aligned hn

/-- A table of the tree is one of the process's own, or a boot table. -/
theorem table_cases (h : Loaded env goblin program args m proc m' l4 m₀ phdrs placed)
    (hkept : ∀ ks n, BootTable m ks n → ∀ x, x / frameSize = n → m'.mem x = m.mem x) {n : Nat}
    (hn : HoldsTable l4 m'.mem n) :
    (∃ ks, TableAt lowHalf l4.number m'.mem ks n) ∨ ∃ ks, BootTable m ks n := by
  obtain ⟨ks, hlen, _, es, htr, hend⟩ := hn
  cases ks with
  | nil =>
    refine Or.inl ⟨[], hlen, trivial, es, Radix.trail_mono (tableEntry_le m'.mem) htr, hend⟩
  | cons k ks =>
    by_cases hk : lowHalf k
    · exact Or.inl ⟨k :: ks, hlen, hk, es, Radix.trail_mono (tableEntry_le m'.mem) htr, hend⟩
    · -- the first entry is the boot table's, and the boot tables below it are as they were
      have hup : upperHalf k := Nat.le_of_not_lt hk
      have hagree : ∀ qs n, BootTable m qs n → ∀ j,
          tableEntry m'.mem n j = tableEntry m.mem n j :=
        fun qs n hn j => tableEntry_congr (hkept qs n hn) j
      have hroot : tableEntry m'.mem l4.number k = tableEntry m'.mem m.cr3.number k := by
        rw [hagree [] _ (Radix.node_root (by decide))]
        unfold tableEntry
        rw [h.space.upper_entry h.placing.toUntouched hup]
      have hsame : Radix.trail target (tableEntry m'.mem) l4.number (k :: ks) =
          Radix.trail target (tableEntry m'.mem) m.cr3.number (k :: ks) := by
        rw [Radix.trail_cons, Radix.trail_cons, hroot]
      rw [hsame, Radix.trail_congr hagree (Nat.le_of_lt hlen) hup] at htr
      have hne : es ≠ [] := by
        rintro rfl
        exact absurd (Radix.length_of_trail htr) (by simp)
      refine Or.inr ⟨k :: ks, hlen, hup, es, htr, ?_⟩
      obtain ⟨init, last, rfl⟩ := (List.eq_nil_or_concat es).resolve_left hne
      rw [List.concat_eq_append, Radix.endOf_concat] at hend ⊢
      exact hend

end Loaded

/-- **User isolation after loading.** -/
theorem load_isolates (hfit : args.Fit env)
    (hnew : RetypeTable.new env memoryMap = .ok (some m.retypeMap))
    (hres : BootTablesReserved memoryMap m) (hboot : BootKernelOnly m)
    (hok : Process.load env goblin program args m = .ok proc m') :
    ∃ l4, proc.l4Table.Points env l4 ∧ Isolated l4 m' := by
  obtain ⟨l4, m₀, phdrs, placed, h⟩ := wp_ok (wp_load hfit) hok
  have huser : ∀ page f, UserMapped m'.mem l4 page f → m'.typing f.number = some (.user, 1) := by
    intro page f hu
    obtain ⟨p, hp, _, rfl, ho⟩ := h.user_placement hboot hu
    exact ((h.placing.holds p hp).typed ho).2
  refine ⟨l4, h.points, ?_, ?_, ?_, ?_⟩
  · exact fun page f hu => ⟨1, huser page f hu, Nat.le_refl 1⟩
  · intro page page' f f' hu hu' hn
    obtain ⟨p, hp, rfl, rfl, hpo⟩ := h.user_placement hboot hu
    obtain ⟨q, hq, rfl, rfl, hqo⟩ := h.user_placement hboot hu'
    rw [h.unshared hp hq hpo hqo hn]
  · intro page f st c hst hty hu
    rw [huser page f hu] at hty
    exact hst (congrArg Prod.fst (Option.some.inj hty)).symm
  · intro page f hu htable
    obtain ⟨p, hp, _, rfl, ho⟩ := h.user_placement hboot hu
    have hkept := (h.space.kernelHalfKept h.placing.toUntouched hnew hres).tables
    rcases h.table_cases hkept htable with ⟨ks, hn⟩ | ⟨ks, hn⟩
    · exact h.placing.rooted.ne_of_typing hn (huser page _ hu) (by decide) rfl
    · -- a boot table's frame was not untyped, and the process's frames were
      have hty := (h.space.not_untyped (hn.not_untyped hnew hres 0)).2
      exact hty ((h.placing.holds p hp).typed ho).1

end Isolation

theorem bootedSpace_kernelOnly : BootKernelOnly bootedSpace := by
  have hall : ∀ k : Fin 512, (entryOf bootedSpace.mem bootedSpace.cr3.number k).all
      fun e => !e.2.contains .userAccessible := by decide +kernel
  intro k _ e he
  have hk := hall k
  rw [he] at hk
  simpa using hk

theorem load_isolates_booted : ∃ proc m' l4,
    Process.load Env.dev (.always [smallSegment]) smallProgram (.boot 0x1b000) bootedSpace =
      .ok proc m' ∧ proc.l4Table.Points Env.dev l4 ∧ Isolated l4 m' := by
  obtain ⟨proc, m', hok⟩ := load_booted
  obtain ⟨l4, hp, hiso⟩ := load_isolates (LoadArgs.boot_fit _ (by decide)) bootedSpace_new
    bootedSpace_reserved bootedSpace_kernelOnly hok
  exact ⟨proc, m', l4, hok, hp, hiso⟩

end Harmony
