import Harmony.Retype.Table

/-!
# What the boot retype table says about every frame

`RetypeTable::new` (`harmony/kernel/src/retyping.rs`) takes the table's storage out of the memory
map and then replays the map into the table, entry by entry, each one overwriting what the earlier
ones wrote. On a map as the bootloader promises it (`Limine`), `USABLE` and
`BOOTLOADER_RECLAIMABLE` entries share no frame with another entry, so the order does not matter
for their frames, and the frames of the storage are in no entry any more.

* `fillAll_of_agree`: a frame whose entries agree gets their type.
* `new_classifies`: the state every frame starts in, where the storage is, and when there is none.
-/

namespace Harmony

/-- The map as the bootloader gives it. -/
structure Limine (mm : List MapEntry) : Prop where
  sorted : mm.Pairwise fun a b => a.base ≤ b.base
  base_aligned : ∀ e ∈ mm, e.base % frameSize = 0
  length_aligned : ∀ e ∈ mm, e.length % frameSize = 0
  length_pos : ∀ e ∈ mm, 0 < e.length
  fits : ∀ e ∈ mm, e.base + e.length < 2 ^ 64
  /-- `USABLE` and `BOOTLOADER_RECLAIMABLE` entries overlap no other entry. -/
  apart : ∀ (i j : Nat) (e e' : MapEntry), i ≠ j → mm[i]? = some e → mm[j]? = some e' →
    e.entryType = .usable ∨ e.entryType = .bootloaderReclaimable →
    e.base + e.length ≤ e'.base ∨ e'.base + e'.length ≤ e.base

/-- Frame number `n` lies in the `k` frames from `start`. -/
def InStorage (start : PhysAddr) (k n : Nat) : Prop :=
  start.addr ≤ n * frameSize ∧ n * frameSize < start.addr + k * frameSize

instance (e : MapEntry) (n : Nat) : Decidable (e.Holds n) :=
  inferInstanceAs (Decidable (_ ∧ _))

/-! ## Replaying a map -/

theorem MapEntry.getElem?_fill {e : MapEntry} {table : List RetypeEntry} {n : Nat}
    (hb : e.base % frameSize = 0) (hl : e.length % frameSize = 0) :
    (e.fill table)[n]? = table[n]?.map fun slot => if e.Holds n then e.retypeEntry else slot := by
  have hin : (e.base / frameSize ≤ n ∧ n < e.base / frameSize + e.length / frameSize) ↔
      e.Holds n := by
    simp only [MapEntry.Holds, frameSize] at hb hl ⊢
    omega
  simp only [MapEntry.fill, List.getElem?_mapIdx, hin]

/-- One turn of the outer loop. -/
theorem fillAll_cons {e : MapEntry} {es : List MapEntry} {table table' : List RetypeEntry}
    (h : fillAll table (e :: es) = .ok table') :
    e.base % frameSize = 0 ∧ e.length % frameSize = 0 ∧ fillAll (e.fill table) es = .ok table' := by
  obtain ⟨_, hb, h⟩ := except_bind_eq_ok h
  obtain ⟨_, hl, h⟩ := except_bind_eq_ok h
  exact ⟨by simpa using Panic.ensure_eq_ok hb, by simpa using Panic.ensure_eq_ok hl, h⟩

theorem length_fillAll {es : List MapEntry} {table table' : List RetypeEntry}
    (h : fillAll table es = .ok table') : table'.length = table.length := by
  induction es generalizing table with
  | nil =>
    obtain rfl := Except.ok.inj h
    rfl
  | cons e es ih =>
    obtain ⟨_, _, h⟩ := fillAll_cons h
    rw [ih h]
    simp [MapEntry.fill]

/-- A frame whose entries all give it `x` has `x` in the end, if it had it before or has an entry
at all. -/
theorem fillAll_of_agree {es : List MapEntry} {table table' : List RetypeEntry} {n : Nat}
    {x : RetypeEntry} (h : fillAll table es = .ok table') (hn : n < table.length)
    (hagree : ∀ e ∈ es, e.Holds n → e.retypeEntry = x)
    (hsome : table[n]? = some x ∨ ∃ e ∈ es, e.Holds n) : table'[n]? = some x := by
  induction es generalizing table with
  | nil =>
    obtain rfl := Except.ok.inj h
    exact hsome.resolve_right fun ⟨e, he, _⟩ => List.not_mem_nil he
  | cons e es ih =>
    obtain ⟨hb, hl, h⟩ := fillAll_cons h
    have hlen : n < (e.fill table).length := by simpa [MapEntry.fill] using hn
    refine ih h hlen (fun e' he' => hagree e' (List.mem_cons_of_mem e he')) ?_
    rw [MapEntry.getElem?_fill hb hl]
    by_cases hold : e.Holds n
    · left
      rw [List.getElem?_eq_getElem hn, Option.map_some, if_pos hold,
        hagree e List.mem_cons_self hold]
    · simp only [if_neg hold, Option.map_id']
      refine hsome.imp_right ?_
      rintro ⟨e', he', hold'⟩
      obtain rfl | hmem := List.mem_cons.mp he'
      · exact absurd hold' hold
      · exact ⟨e', hmem, hold'⟩

/-! ## The map and its storage -/

/-- The entry without its first `k` frames. -/
def MapEntry.less (e : MapEntry) (k : Nat) : MapEntry :=
  { e with base := e.base + k * frameSize, length := e.length - k * frameSize }

/-- `RetypeTable::new` that returned a table: the entry at `i` lost its low end to the storage. -/
structure Carved (env : Env) (mm : List MapEntry) (table : List RetypeEntry) (last entry : MapEntry)
    (start : PhysAddr) (i : Nat) : Prop where
  last_eq : mm.getLast? = some last
  top_aligned : (last.base + last.length) % frameSize = 0
  length_eq : table.length = (last.base + last.length) / frameSize
  entry_eq : mm[i]? = some entry
  usable : entry.entryType = .usable
  room : RetypeTable.storageFrames table.length * frameSize ≤ entry.length
  start_eq : start.addr = entry.base
  taken : ∃ a, BootAllocator.allocFrames env ⟨mm, 0⟩ (RetypeTable.storageFrames table.length) =
    .ok (some start, a)
  filled : fillAll (List.replicate table.length RetypeEntry.unavailable)
    (mm.set i (entry.less (RetypeTable.storageFrames table.length))) = .ok table

theorem carved_of_new {env : Env} {mm : List MapEntry} {table : List RetypeEntry}
    (hmm : Limine mm) (h : RetypeTable.new env mm = .ok (some table)) :
    ∃ last entry start i, Carved env mm table last entry start i := by
  cases hlast : mm.getLast? with
  | none =>
    unfold RetypeTable.new at h
    rw [hlast] at h
    exact absurd h (by simp)
  | some last =>
    obtain ⟨top, storage, allocator, htop, halign, hloop, hcase⟩ := new_eq_ok hlast h
    have hfits := hmm.fits last (List.mem_of_getLast? hlast)
    obtain rfl : last.base + last.length = top :=
      Except.ok.inj ((Env.add_of_lt env hfits).symm.trans htop)
    cases storage with
    | none => exact absurd hcase (by simp)
    | some start =>
      obtain ⟨t, ht, hfill⟩ := hcase
      obtain rfl := Option.some.inj ht
      have hlen : table.length = (last.base + last.length) / frameSize := by
        rw [length_fillAll hfill, List.length_replicate]
      have hle := RetypeTable.storage_le (Env.add_lt htop)
      rw [← hlen] at hloop hfill hle
      obtain ⟨i, entry, base, length, hget, husable, hfit, hstart, hbase, hlength, hmap⟩ :=
        BootAllocator.allocFramesLoop_some _ hloop
      obtain ⟨rfl, rfl⟩ := carved_bounds hle hfit hstart hbase hlength
      refine ⟨last, entry, start, i, hlast, halign, hlen, hget, husable, hfit, hstart,
        ⟨allocator, ?_⟩, hmap ▸ hfill⟩
      have hmul := Env.mul_of_lt env (Nat.lt_of_le_of_lt hle (by norm_num : 2 ^ 63 < 2 ^ 64))
      show (env.mul (RetypeTable.storageFrames table.length) frameSize >>= fun req => _) = _
      rw [hmul]
      exact hloop

section Holders

variable {env : Env} {mm : List MapEntry} {table : List RetypeEntry} {last entry : MapEntry}
  {start : PhysAddr} {i n : Nat}

/-- Two entries of the map that hold one frame are one entry, if one of them is `USABLE`. -/
theorem Limine.holder_unique (hmm : Limine mm) {j k : Nat} {e e' : MapEntry}
    (he : mm[j]? = some e) (he' : mm[k]? = some e') (husable : e.entryType = .usable)
    (hold : e.Holds n) (hold' : e'.Holds n) : j = k := by
  by_contra hne
  have hapart := hmm.apart j k e e' hne he he' (.inl husable)
  simp only [MapEntry.Holds] at hold hold'
  omega

/-- What holds a frame after the storage is gone: an entry that held it before, at the same place
and with the same type, unless the frame is in the storage. -/
theorem Carved.holder (h : Carved env mm table last entry start i) (hmm : Limine mm) {e' : MapEntry}
    (he' : e' ∈ mm.set i (entry.less (RetypeTable.storageFrames table.length)))
    (hold : e'.Holds n) :
    ¬ InStorage start (RetypeTable.storageFrames table.length) n ∧
      ∃ (j : Nat) (e : MapEntry), mm[j]? = some e ∧ e.Holds n ∧ e'.retypeEntry = e.retypeEntry := by
  have hstart := h.start_eq
  have hroom := h.room
  obtain ⟨j, hj⟩ := List.mem_iff_getElem?.mp he'
  rw [List.getElem?_set] at hj
  split_ifs at hj with hij hlt
  · -- the entry the storage came from, without it
    subst hij
    obtain rfl := Option.some.inj hj
    refine ⟨?_, i, entry, h.entry_eq, ?_, rfl⟩
    · simp only [InStorage, MapEntry.Holds, MapEntry.less] at hold ⊢
      omega
    · simp only [MapEntry.Holds, MapEntry.less] at hold ⊢
      omega
  · refine ⟨fun hin => hij ?_, j, e', hj, hold, rfl⟩
    have hentry : entry.Holds n := by
      simp only [InStorage, MapEntry.Holds] at hin ⊢
      omega
    exact hmm.holder_unique h.entry_eq hj h.usable hentry hold

/-- An entry that held a frame still does, unless the frame went to the storage. -/
theorem Carved.still_held (h : Carved env mm table last entry start i) {e : MapEntry} (he : e ∈ mm)
    (hold : e.Holds n) (hout : ¬ InStorage start (RetypeTable.storageFrames table.length) n) :
    ∃ e' ∈ mm.set i (entry.less (RetypeTable.storageFrames table.length)), e'.Holds n := by
  have hstart := h.start_eq
  obtain ⟨j, hj⟩ := List.mem_iff_getElem?.mp he
  by_cases hij : i = j
  · subst hij
    obtain rfl := Option.some.inj (h.entry_eq.symm.trans hj)
    refine ⟨_,
      List.mem_of_getElem? (List.getElem?_set_self (List.getElem?_eq_some_iff.mp hj).1), ?_⟩
    simp only [InStorage, MapEntry.Holds, MapEntry.less] at hold hout ⊢
    omega
  · refine ⟨e, List.mem_of_getElem? (i := j) ?_, hold⟩
    rw [List.getElem?_set_ne hij]
    exact hj

/-- A frame whose entries all give it `x`, in the table that was built. -/
theorem Carved.slot_of_agree (h : Carved env mm table last entry start i) (hmm : Limine mm)
    (hn : n < table.length) {x : RetypeEntry}
    (hagree : ∀ e ∈ mm, e.Holds n → e.retypeEntry = x)
    (hsome : x = RetypeEntry.unavailable ∨ (∃ e ∈ mm, e.Holds n) ∧
      ¬ InStorage start (RetypeTable.storageFrames table.length) n) : table[n]? = some x := by
  refine fillAll_of_agree h.filled (by simpa using hn) ?_ ?_
  · intro e' he' hold
    obtain ⟨_, j, e, he, hold', heq⟩ := h.holder hmm he' hold
    rw [heq]
    exact hagree e (List.mem_of_getElem? he) hold'
  · obtain rfl | ⟨⟨e, he, hold⟩, hout⟩ := hsome
    · left
      rw [List.getElem?_replicate, if_pos hn]
    · exact .inr (h.still_held he hold hout)

/-- The frames of the storage stay unavailable: no entry holds them any more. -/
theorem Carved.slot_of_storage (h : Carved env mm table last entry start i) (hmm : Limine mm)
    (hn : n < table.length) (hin : InStorage start (RetypeTable.storageFrames table.length) n) :
    table[n]? = some RetypeEntry.unavailable := by
  refine fillAll_of_agree h.filled (by simpa using hn) ?_ (.inl ?_)
  · intro e' he' hold
    exact absurd hin (h.holder hmm he' hold).1
  · rw [List.getElem?_replicate, if_pos hn]

/-- A frame of a `USABLE` entry outside the storage is untyped. -/
theorem Carved.slot_of_usable (h : Carved env mm table last entry start i) (hmm : Limine mm)
    (hn : n < table.length) {u : MapEntry} (hu : u ∈ mm) (husable : u.entryType = .usable)
    (hold : u.Holds n) (hout : ¬ InStorage start (RetypeTable.storageFrames table.length) n) :
    table[n]? = some RetypeEntry.untyped := by
  refine h.slot_of_agree hmm hn (fun e he hold' => ?_) (.inr ⟨⟨u, hu, hold⟩, hout⟩)
  obtain ⟨j, hj⟩ := List.mem_iff_getElem?.mp hu
  obtain ⟨k, hk⟩ := List.mem_iff_getElem?.mp he
  obtain rfl := hmm.holder_unique hj hk husable hold hold'
  obtain rfl := Option.some.inj (hj.symm.trans hk)
  unfold MapEntry.retypeEntry
  rw [husable]

/-- The last entry of the map reaches above every `USABLE` one. -/
theorem Limine.usable_below_last (hmm : Limine mm) (hlast : mm.getLast? = some last) {u : MapEntry}
    (hu : u ∈ mm) (husable : u.entryType = .usable) :
    u.base + u.length ≤ last.base + last.length := by
  have hpos := hmm.length_pos last (List.mem_of_getLast? hlast)
  rw [List.getLast?_eq_getElem?] at hlast
  obtain ⟨j, hj⟩ := List.mem_iff_getElem?.mp hu
  obtain ⟨hjlt, hju⟩ := List.getElem?_eq_some_iff.mp hj
  by_cases hjl : j = mm.length - 1
  · subst hjl
    obtain rfl := Option.some.inj (hj.symm.trans hlast)
    exact Nat.le_refl _
  · obtain ⟨hllt, hll⟩ := List.getElem?_eq_some_iff.mp hlast
    have hsorted : u.base ≤ last.base := by
      rw [← hju, ← hll]
      exact List.pairwise_iff_getElem.mp hmm.sorted j (mm.length - 1) hjlt hllt (by omega)
    have hapart := hmm.apart j (mm.length - 1) u last hjl hj hlast (.inl husable)
    omega

end Holders

/-! ## The classification -/

/-- The state that `RetypeTable::new` gives each frame of a table with its storage at `start`. -/
structure Classified (mm : List MapEntry) (table : List RetypeEntry) (start : PhysAddr) : Prop where
  untyped_iff : ∀ n x, table[n]? = some x → (x.get = (.untyped, 0) ↔
    (∃ u ∈ mm, u.entryType = .usable ∧ u.Holds n) ∧
      ¬ InStorage start (RetypeTable.storageFrames table.length) n)
  kernel : ∀ n x, table[n]? = some x → (∃ e ∈ mm, e.Holds n) →
    (∀ e ∈ mm, e.Holds n →
      e.entryType = .bootloaderReclaimable ∨ e.entryType = .kernelAndModules) →
    x.get = (.kernel, 1)
  unavailable : ∀ n x, table[n]? = some x →
    InStorage start (RetypeTable.storageFrames table.length) n ∨
      (∀ e ∈ mm, e.Holds n → ∃ code, e.entryType = .other code) →
    x.get = (.unavailable, 0)

theorem Carved.classified {env : Env} {mm : List MapEntry} {table : List RetypeEntry}
    {last entry : MapEntry} {start : PhysAddr} {i : Nat}
    (h : Carved env mm table last entry start i)
    (hmm : Limine mm) (hnew : RetypeTable.new env mm = .ok (some table)) :
    Classified mm table start where
  untyped_iff := by
    intro n x hx
    have hn := (List.getElem?_eq_some_iff.mp hx).1
    constructor
    · intro hun
      refine ⟨new_untyped_usable hnew hx (by rw [hun]), fun hin => ?_⟩
      obtain rfl := Option.some.inj (hx.symm.trans (h.slot_of_storage hmm hn hin))
      exact absurd hun (by simp)
    · rintro ⟨⟨u, hu, husable, hold⟩, hout⟩
      obtain rfl := Option.some.inj (hx.symm.trans (h.slot_of_usable hmm hn hu husable hold hout))
      exact RetypeEntry.get_untyped
  kernel := by
    intro n x hx hsome hall
    have hn := (List.getElem?_eq_some_iff.mp hx).1
    have hout : ¬ InStorage start (RetypeTable.storageFrames table.length) n := by
      intro hin
      have hold : entry.Holds n := by
        have hstart := h.start_eq
        have hroom := h.room
        simp only [InStorage, MapEntry.Holds] at hin ⊢
        omega
      have htype := hall entry (List.mem_of_getElem? h.entry_eq) hold
      rw [h.usable] at htype
      simp at htype
    have hslot : table[n]? = some (RetypeEntry.kernel 1 (by decide)) := by
      refine h.slot_of_agree hmm hn (fun e he hold => ?_) (.inr ⟨hsome, hout⟩)
      unfold MapEntry.retypeEntry
      obtain htype | htype := hall e he hold <;> rw [htype]
    obtain rfl := Option.some.inj (hx.symm.trans hslot)
    exact RetypeEntry.get_kernel 1 (by decide)
  unavailable := by
    intro n x hx hcase
    have hn := (List.getElem?_eq_some_iff.mp hx).1
    have hslot : table[n]? = some RetypeEntry.unavailable := by
      obtain hin | hother := hcase
      · exact h.slot_of_storage hmm hn hin
      · refine h.slot_of_agree hmm hn (fun e he hold => ?_) (.inl rfl)
        obtain ⟨code, htype⟩ := hother e he hold
        unfold MapEntry.retypeEntry
        rw [htype]
    obtain rfl := Option.some.inj (hx.symm.trans hslot)
    exact RetypeEntry.get_unavailable

/-- `RetypeTable::new` on the bootloader's map: a table has an entry for every frame below the end
of the last map entry and so for every `USABLE` frame, it lies in whole frames of one `USABLE`
entry with room for all its entries, and every frame is classified. There is no table only if the
map is empty or no `USABLE` entry has that room. -/
theorem new_classifies (env : Env) {mm : List MapEntry} (hmm : Limine mm) :
    (∀ table, RetypeTable.new env mm = .ok (some table) →
      ∃ last start, mm.getLast? = some last ∧
        table.length = (last.base + last.length) / frameSize ∧
        (∀ u ∈ mm, u.entryType = .usable → ∀ n, u.Holds n → n < table.length) ∧
        (∃ a, BootAllocator.allocFrames env ⟨mm, 0⟩ (RetypeTable.storageFrames table.length) =
          .ok (some start, a)) ∧
        start.addr % frameSize = 0 ∧
        2 * table.length ≤ RetypeTable.storageFrames table.length * frameSize ∧
        (∃ e ∈ mm, e.entryType = .usable ∧ e.base ≤ start.addr ∧
          start.addr + RetypeTable.storageFrames table.length * frameSize ≤ e.base + e.length) ∧
        Classified mm table start) ∧
    (RetypeTable.new env mm = .ok none → ∀ last, mm.getLast? = some last →
      ∀ u ∈ mm, u.entryType = .usable → u.length <
        RetypeTable.storageFrames ((last.base + last.length) / frameSize) * frameSize) := by
  constructor
  · intro table hnew
    obtain ⟨last, entry, start, i, h⟩ := carved_of_new hmm hnew
    have hentry := List.mem_of_getElem? h.entry_eq
    refine ⟨last, start, h.last_eq, h.length_eq, ?_, h.taken, ?_, ?_,
      ⟨entry, hentry, h.usable, h.start_eq.ge, ?_⟩, h.classified hmm hnew⟩
    · intro u hu husable n hold
      have hbelow := hmm.usable_below_last h.last_eq hu husable
      have halign := h.top_aligned
      rw [h.length_eq]
      simp only [MapEntry.Holds, frameSize] at hold halign ⊢
      omega
    · rw [h.start_eq]
      exact hmm.base_aligned entry hentry
    · simp only [RetypeTable.storageFrames, pageSize, frameSize]
      omega
    · rw [h.start_eq]
      exact Nat.add_le_add_left h.room _
  · intro hnew last hlast u hu husable
    obtain ⟨top, storage, allocator, htop, _, hloop, hcase⟩ := new_eq_ok hlast hnew
    have hfits := hmm.fits last (List.mem_of_getLast? hlast)
    obtain rfl : last.base + last.length = top :=
      Except.ok.inj ((Env.add_of_lt env hfits).symm.trans htop)
    cases storage with
    | some _ => exact absurd hcase (by simp)
    | none =>
      obtain ⟨j, hj⟩ := List.mem_iff_getElem?.mp hu
      exact BootAllocator.allocFramesLoop_none mm.length (Nat.le_add_left _ _) hloop j u
        (Nat.zero_le j) hj husable

/-- Firmware, three usable frames and the kernel. -/
def smallMap : List MapEntry :=
  [⟨0, 0x1000, .other 1⟩, ⟨0x1000, 0x3000, .usable⟩, ⟨0x4000, 0x1000, .kernelAndModules⟩]

theorem smallMap_limine : Limine smallMap where
  sorted := by decide
  base_aligned := by decide
  length_aligned := by decide
  length_pos := by decide
  fits := by decide
  apart := by
    intro i j e e' hij hi hj _
    obtain ⟨hilt, hie⟩ := List.getElem?_eq_some_iff.mp hi
    obtain ⟨hjlt, hje⟩ := List.getElem?_eq_some_iff.mp hj
    have hall : ∀ a b : Fin 3, a ≠ b →
        smallMap[a].base + smallMap[a].length ≤ smallMap[b].base ∨
          smallMap[b].base + smallMap[b].length ≤ smallMap[a].base := by decide
    rw [← hie, ← hje]
    exact hall ⟨i, hilt⟩ ⟨j, hjlt⟩ fun h => hij (congrArg Fin.val h)

theorem new_classifies_smallMap : ∃ table start,
    RetypeTable.new Env.dev smallMap = .ok (some table) ∧ table.length = 5 ∧
    Classified smallMap table start := by
  have hnew : RetypeTable.new Env.dev smallMap = .ok (some [RetypeEntry.unavailable,
      RetypeEntry.unavailable, RetypeEntry.untyped, RetypeEntry.untyped,
      RetypeEntry.kernel 1 (by decide)]) := by decide +kernel
  obtain ⟨_, start, _, _, _, _, _, _, _, hclass⟩ :=
    (new_classifies Env.dev smallMap_limine).1 _ hnew
  exact ⟨_, start, hnew, rfl, hclass⟩

end Harmony
