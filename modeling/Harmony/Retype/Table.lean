import Harmony.Retype.Frames

/-!
# The retype table at boot

Model of `RetypeTable::new` and of the boot allocator it takes the table's storage from
(`retyping::bump_alloc::BumpAllocator`, `harmony/kernel/src/retyping.rs`), over the bootloader's
memory map.

* `new_entry_cases`: every entry of a new table is `(Unavailable, 0)`, `(Untyped, 0)` or
  `(Kernel, 1)`.
* `new_untyped_usable`: a frame that starts out `Untyped` lies in a `USABLE` entry of the map.
-/

namespace Harmony

/-- limine's `EntryType`; every other code is `other`. -/
inductive EntryType where
  | usable
  | bootloaderReclaimable
  | kernelAndModules
  | other (code : Nat)
  deriving DecidableEq, Repr

/-- limine's memory map `Entry`. -/
structure MapEntry where
  base : Nat
  length : Nat
  entryType : EntryType
  deriving DecidableEq, Repr

/-- Frame number `n` lies in the entry. -/
def MapEntry.Holds (e : MapEntry) (n : Nat) : Prop :=
  e.base ≤ n * frameSize ∧ n * frameSize < e.base + e.length

/-- `bump_alloc::BumpAllocator`: the memory map it carves from, and where it got to. -/
structure BootAllocator where
  memoryMap : List MapEntry
  index : Nat

/-- The loop of `alloc_frames`, at most `fuel` entries from the end of the map. -/
def BootAllocator.allocFramesLoop (env : Env) (requestedLength : Nat) :
    Nat → BootAllocator → Except Panic (Option PhysAddr × BootAllocator)
  | 0, a => .ok (none, a)
  | fuel + 1, a =>
    match a.memoryMap[a.index]? with
    | none => .ok (none, a)
    | some entry => do
      Panic.ensure (entry.length % frameSize == 0) "entry.length % FRAME_SIZE == 0"
      if entry.entryType = .usable ∧ requestedLength ≤ entry.length then
        let base ← env.add entry.base requestedLength
        let length ← env.sub entry.length requestedLength
        let start ← PhysAddr.new entry.base
        pure (some start,
          { a with memoryMap := a.memoryMap.set a.index { entry with base, length } })
      else allocFramesLoop env requestedLength fuel { a with index := a.index + 1 }

/-- `bump_alloc::BumpAllocator::alloc_frames`. -/
def BootAllocator.allocFrames (env : Env) (a : BootAllocator) (count : Nat) :
    Except Panic (Option PhysAddr × BootAllocator) := do
  let requestedLength ← env.mul count frameSize
  allocFramesLoop env requestedLength (a.memoryMap.length - a.index) a

/-- The entry that frames of a map entry's type start with. -/
def MapEntry.retypeEntry (e : MapEntry) : RetypeEntry :=
  match e.entryType with
  | .usable => RetypeEntry.untyped
  | .bootloaderReclaimable => RetypeEntry.kernel 1 RetypeEntry.one_le_maxRefCount
  | .kernelAndModules => RetypeEntry.kernel 1 RetypeEntry.one_le_maxRefCount
  | .other _ => RetypeEntry.unavailable

/-- The inner loop of `RetypeTable::new`: `retype_map.iter_mut().skip(start_idx).take(count)`. -/
def MapEntry.fill (e : MapEntry) (table : List RetypeEntry) : List RetypeEntry :=
  let startIdx := e.base / frameSize
  let count := e.length / frameSize
  table.mapIdx fun i slot => if startIdx ≤ i ∧ i < startIdx + count then e.retypeEntry else slot

/-- The outer loop of `RetypeTable::new`. -/
def fillAll (table : List RetypeEntry) : List MapEntry → Except Panic (List RetypeEntry)
  | [] => .ok table
  | e :: rest => do
    Panic.ensure (e.base % frameSize == 0) "entry.base % FRAME_SIZE == 0"
    Panic.ensure (e.length % frameSize == 0) "entry.length % FRAME_SIZE == 0"
    fillAll (e.fill table) rest

/-- `RetypeTable::new`: the table, or `None`. -/
def RetypeTable.new (env : Env) (memoryMap : List MapEntry) :
    Except Panic (Option (List RetypeEntry)) :=
  match memoryMap.getLast? with
  | none => .ok none
  | some last => do
    let physicalTop ← env.add last.base last.length
    Panic.ensure (physicalTop % frameSize == 0) "physical_top % FRAME_SIZE == 0"
    let numberFrames := physicalTop / frameSize
    let retypeMapSize ← env.mul 2 numberFrames
    Panic.ensure (decide (0 < retypeMapSize)) "retype_map_size > 0"
    let retypeMapFrames := (retypeMapSize - 1) / pageSize + 1
    let (storage, allocator) ← BootAllocator.allocFrames env ⟨memoryMap, 0⟩ retypeMapFrames
    match storage with
    | none => pure none
    | some start =>
      let _ ← start.toVirtual env
      let table ← fillAll (List.replicate numberFrames RetypeEntry.unavailable) allocator.memoryMap
      pure (some table)

/-! ## What a new table holds -/

/-- Peel one step off a computation that came out. -/
theorem except_bind_eq_ok {α β : Type} {x : Except Panic α} {k : α → Except Panic β} {b : β}
    (h : (x >>= k) = .ok b) : ∃ a, x = .ok a ∧ k a = .ok b := by
  cases x with
  | error p => exact absurd h (by simp [bind, Except.bind])
  | ok a => exact ⟨a, rfl, h⟩

theorem MapEntry.retypeEntry_cases (e : MapEntry) :
    e.retypeEntry.get = (.unavailable, 0) ∨ e.retypeEntry.get = (.untyped, 0) ∨
      e.retypeEntry.get = (.kernel, 1) := by
  unfold MapEntry.retypeEntry
  cases e.entryType with
  | usable => exact Or.inr (Or.inl RetypeEntry.get_untyped)
  | bootloaderReclaimable => exact Or.inr (Or.inr (by decide))
  | kernelAndModules => exact Or.inr (Or.inr (by decide))
  | other code => exact Or.inl RetypeEntry.get_unavailable

theorem MapEntry.usable_of_untyped {e : MapEntry} (h : e.retypeEntry.get.1 = .untyped) :
    e.entryType = .usable := by
  unfold MapEntry.retypeEntry at h
  cases ht : e.entryType with
  | usable => rfl
  | bootloaderReclaimable => rw [ht] at h; exact absurd h (by decide)
  | kernelAndModules => rw [ht] at h; exact absurd h (by decide)
  | other code => rw [ht] at h; exact absurd h (by simp)

/-- A slot of the filled table is as it was, or a frame of the entry, with the entry's type. -/
theorem MapEntry.fill_cases {e : MapEntry} {table : List RetypeEntry} {i : Nat} {x : RetypeEntry}
    (hb : e.base % frameSize = 0) (hl : e.length % frameSize = 0)
    (h : (e.fill table)[i]? = some x) :
    table[i]? = some x ∨ (e.Holds i ∧ x = e.retypeEntry) := by
  simp only [MapEntry.fill, List.getElem?_mapIdx, Option.map_eq_some_iff] at h
  obtain ⟨slot, hslot, hx⟩ := h
  by_cases hin : e.base / frameSize ≤ i ∧ i < e.base / frameSize + e.length / frameSize
  · rw [if_pos hin] at hx
    refine Or.inr ⟨?_, hx.symm⟩
    simp only [MapEntry.Holds, frameSize] at hin hb hl ⊢
    omega
  · rw [if_neg hin] at hx
    exact Or.inl (by rw [hslot, hx])

/-- A slot after the outer loop is as it was before, or a frame of one of the map's entries. -/
theorem fillAll_cases {es : List MapEntry} {table table' : List RetypeEntry} {i : Nat}
    {x : RetypeEntry} (h : fillAll table es = .ok table') (hx : table'[i]? = some x) :
    table[i]? = some x ∨ ∃ e ∈ es, e.Holds i ∧ x = e.retypeEntry := by
  induction es generalizing table with
  | nil =>
    obtain rfl := Except.ok.inj h
    exact Or.inl hx
  | cons e es ih =>
    obtain ⟨_, hb, h⟩ := except_bind_eq_ok h
    obtain ⟨_, hl, h⟩ := except_bind_eq_ok h
    have hb' : e.base % frameSize = 0 := by simpa using Panic.ensure_eq_ok hb
    have hl' : e.length % frameSize = 0 := by simpa using Panic.ensure_eq_ok hl
    rcases ih h with hfill | ⟨e', he', hcase⟩
    · rcases MapEntry.fill_cases hb' hl' hfill with h0 | hnew
      · exact Or.inl h0
      · exact Or.inr ⟨e, List.mem_cons_self, hnew⟩
    · exact Or.inr ⟨e', List.mem_cons_of_mem e he', hcase⟩

/-- Storage that was found is the low end of a `USABLE` entry, which loses it. -/
theorem BootAllocator.allocFramesLoop_some {env : Env} {req : Nat} :
    ∀ (fuel : Nat) {a a' : BootAllocator} {start : PhysAddr},
      allocFramesLoop env req fuel a = .ok (some start, a') →
      ∃ i entry base length, a.memoryMap[i]? = some entry ∧ entry.entryType = .usable ∧
        req ≤ entry.length ∧ start.addr = entry.base ∧ env.add entry.base req = .ok base ∧
        env.sub entry.length req = .ok length ∧
        a'.memoryMap = a.memoryMap.set i { entry with base, length } := by
  intro fuel
  induction fuel with
  | zero => intro a a' start h; exact absurd h (by simp [allocFramesLoop])
  | succ fuel ih =>
    intro a a' start h
    unfold allocFramesLoop at h
    cases hget : a.memoryMap[a.index]? with
    | none => rw [hget] at h; exact absurd h (by simp)
    | some entry =>
      rw [hget] at h
      obtain ⟨_, _, h⟩ := except_bind_eq_ok h
      by_cases hfit : entry.entryType = .usable ∧ req ≤ entry.length
      · rw [if_pos hfit] at h
        obtain ⟨base, hbase, h⟩ := except_bind_eq_ok h
        obtain ⟨length, hlen, h⟩ := except_bind_eq_ok h
        obtain ⟨p, hp, h⟩ := except_bind_eq_ok h
        obtain ⟨hstart, rfl⟩ := Prod.mk.inj (Except.ok.inj h)
        obtain rfl := Option.some.inj hstart
        exact ⟨a.index, entry, base, length, hget, hfit.1, hfit.2, PhysAddr.new_eq_ok hp, hbase,
          hlen, rfl⟩
      · rw [if_neg hfit] at h
        have hrest := ih h
        exact hrest

/-- Where no storage is found, every `USABLE` entry is too short. -/
theorem BootAllocator.allocFramesLoop_none {env : Env} {req : Nat} :
    ∀ (fuel : Nat) {a a' : BootAllocator}, a.memoryMap.length ≤ a.index + fuel →
      allocFramesLoop env req fuel a = .ok (none, a') →
      ∀ i entry, a.index ≤ i → a.memoryMap[i]? = some entry → entry.entryType = .usable →
        entry.length < req := by
  intro fuel
  induction fuel with
  | zero =>
    intro a a' hfuel _ i entry hi hget
    have hlt := (List.getElem?_eq_some_iff.mp hget).1
    omega
  | succ fuel ih =>
    intro a a' hfuel h i entry hi hget husable
    unfold allocFramesLoop at h
    cases hat : a.memoryMap[a.index]? with
    | none =>
      have hlt := (List.getElem?_eq_some_iff.mp hget).1
      have hge := List.getElem?_eq_none_iff.mp hat
      omega
    | some first =>
      rw [hat] at h
      obtain ⟨_, _, h⟩ := except_bind_eq_ok h
      by_cases hfit : first.entryType = .usable ∧ req ≤ first.length
      · rw [if_pos hfit] at h
        obtain ⟨_, _, h⟩ := except_bind_eq_ok h
        obtain ⟨_, _, h⟩ := except_bind_eq_ok h
        obtain ⟨_, _, h⟩ := except_bind_eq_ok h
        exact absurd (Prod.mk.inj (Except.ok.inj h)).1 (by simp)
      · rw [if_neg hfit] at h
        obtain rfl | hlt := Nat.eq_or_lt_of_le hi
        · obtain rfl := Option.some.inj (hat.symm.trans hget)
          by_contra hge
          exact hfit ⟨husable, by omega⟩
        · exact ih (by simp only; omega) h i entry hlt hget husable

/-- The entry the storage was carved from, without it. The storage starts below `2 ^ 52`, so the
new base does not wrap. -/
theorem carved_bounds {env : Env} {req : Nat} (hreq : req ≤ 2 ^ 63) {entry : MapEntry}
    {start : PhysAddr} {base length : Nat} (hfit : req ≤ entry.length)
    (hstart : start.addr = entry.base) (hbase : env.add entry.base req = .ok base)
    (hlen : env.sub entry.length req = .ok length) :
    base = entry.base + req ∧ length = entry.length - req := by
  have hplt := start.lt
  constructor
  · rcases Env.add_eq_ok hbase with ⟨_, hb⟩ | ⟨_, hge, _⟩
    · exact hb
    · omega
  · rcases Env.sub_eq_ok hlen with ⟨_, hl⟩ | ⟨_, hlt, _⟩
    · exact hl
    · omega

/-- Carving the table's storage out of the map adds no frame to any type: every entry left is
part of an entry that was there, with its type. -/
theorem BootAllocator.allocFramesLoop_shrinks {env : Env} {req : Nat} (hreq : req ≤ 2 ^ 63)
    (fuel : Nat) {a a' : BootAllocator} {start : PhysAddr}
    (h : allocFramesLoop env req fuel a = .ok (some start, a')) :
    ∀ e' ∈ a'.memoryMap, ∃ e ∈ a.memoryMap, e'.entryType = e.entryType ∧
      ∀ n, e'.Holds n → e.Holds n := by
  obtain ⟨i, entry, base, length, hget, husable, hfit, hstart, hbase, hlen, hmap⟩ :=
    allocFramesLoop_some fuel h
  obtain ⟨rfl, rfl⟩ := carved_bounds hreq hfit hstart hbase hlen
  intro e' he'
  rw [hmap] at he'
  rcases List.mem_or_eq_of_mem_set he' with hmem | rfl
  · exact ⟨e', hmem, rfl, fun _ hn => hn⟩
  · refine ⟨entry, List.mem_of_getElem? hget, rfl, fun n hn => ?_⟩
    simp only [MapEntry.Holds] at hn ⊢
    omega

/-- The frames of storage that a table of `n` entries takes. -/
def RetypeTable.storageFrames (n : Nat) : Nat := (2 * n - 1) / pageSize + 1

/-- `RetypeTable::new` on a map that is not empty, taken apart: the storage it asks for, and the
table it fills from what is left of the map. -/
theorem new_eq_ok {env : Env} {mm : List MapEntry} {last : MapEntry} {r : Option (List RetypeEntry)}
    (hlast : mm.getLast? = some last) (h : RetypeTable.new env mm = .ok r) :
    ∃ top storage allocator, env.add last.base last.length = .ok top ∧ top % frameSize = 0 ∧
      BootAllocator.allocFramesLoop env (RetypeTable.storageFrames (top / frameSize) * frameSize)
        mm.length ⟨mm, 0⟩ = .ok (storage, allocator) ∧
      match storage with
      | none => r = none
      | some _ => ∃ table, r = some table ∧ fillAll
          (List.replicate (top / frameSize) RetypeEntry.unavailable) allocator.memoryMap =
            .ok table := by
  unfold RetypeTable.new at h
  rw [hlast] at h
  obtain ⟨top, htop, h⟩ := except_bind_eq_ok h
  obtain ⟨_, halign, h⟩ := except_bind_eq_ok h
  obtain ⟨size, hsize, h⟩ := except_bind_eq_ok h
  obtain ⟨_, _, h⟩ := except_bind_eq_ok h
  obtain ⟨⟨storage, allocator⟩, halloc, h⟩ := except_bind_eq_ok h
  obtain ⟨req, hreq, hloop⟩ := except_bind_eq_ok halloc
  have htlt := Env.add_lt htop
  have hsize' : size = 2 * (top / frameSize) := by
    rcases Env.mul_eq_ok hsize with ⟨_, rfl⟩ | ⟨_, hge, _⟩
    · rfl
    · simp only [frameSize] at hge
      omega
  have hreq' : req = RetypeTable.storageFrames (top / frameSize) * frameSize := by
    rcases Env.mul_eq_ok hreq with ⟨_, rfl⟩ | ⟨_, hge, _⟩
    · rw [hsize']
      rfl
    · rw [hsize'] at hge
      simp only [frameSize, pageSize] at hge
      omega
  refine ⟨top, storage, allocator, htop, by simpa using Panic.ensure_eq_ok halign, ?_, ?_⟩
  · rw [← hreq']
    exact hloop
  · cases storage with
    | none => exact (Except.ok.inj h).symm
    | some start =>
      obtain ⟨_, _, h⟩ := except_bind_eq_ok h
      obtain ⟨table, hfill, h⟩ := except_bind_eq_ok h
      exact ⟨table, (Except.ok.inj h).symm, hfill⟩

theorem RetypeTable.storage_le {top : Nat} (h : top < 2 ^ 64) :
    storageFrames (top / frameSize) * frameSize ≤ 2 ^ 63 := by
  simp only [storageFrames, pageSize, frameSize]
  omega

/-- **What a new table holds**: each entry was left unavailable, or is a frame of a map entry and
has that entry's type. -/
theorem new_slot_cases {env : Env} {mm : List MapEntry} {table : List RetypeEntry} {i : Nat}
    {x : RetypeEntry} (h : RetypeTable.new env mm = .ok (some table)) (hx : table[i]? = some x) :
    x = RetypeEntry.unavailable ∨
      ∃ e ∈ mm, e.Holds i ∧ ∃ e' : MapEntry, e'.entryType = e.entryType ∧ x = e'.retypeEntry := by
  cases hlast : mm.getLast? with
  | none =>
    unfold RetypeTable.new at h
    rw [hlast] at h
    exact absurd h (by simp)
  | some last =>
    obtain ⟨top, storage, allocator, htop, _, hloop, hcase⟩ := new_eq_ok hlast h
    cases storage with
    | none => exact absurd hcase (by simp)
    | some start =>
      obtain ⟨t, ht, hfill⟩ := hcase
      obtain rfl := Option.some.inj ht
      rcases fillAll_cases hfill hx with h0 | ⟨e', he', hin, rfl⟩
      · rw [List.getElem?_replicate] at h0
        split_ifs at h0
        exact Or.inl (Option.some.inj h0).symm
      · obtain ⟨e, he, htype, hsub⟩ := BootAllocator.allocFramesLoop_shrinks
          (RetypeTable.storage_le (Env.add_lt htop)) _ hloop e' he'
        exact Or.inr ⟨e, he, hsub i hin, e', htype, rfl⟩

/-- Every entry of a new table is `(Unavailable, 0)`, `(Untyped, 0)` or `(Kernel, 1)`. -/
theorem new_entry_cases {env : Env} {mm : List MapEntry} {table : List RetypeEntry} {i : Nat}
    {x : RetypeEntry} (h : RetypeTable.new env mm = .ok (some table)) (hx : table[i]? = some x) :
    x.get = (.unavailable, 0) ∨ x.get = (.untyped, 0) ∨ x.get = (.kernel, 1) := by
  rcases new_slot_cases h hx with rfl | ⟨_, _, _, e', _, rfl⟩
  · exact Or.inl RetypeEntry.get_unavailable
  · exact e'.retypeEntry_cases

/-- A frame that starts out `Untyped` lies in a `USABLE` entry of the map. -/
theorem new_untyped_usable {env : Env} {mm : List MapEntry} {table : List RetypeEntry} {i : Nat}
    {x : RetypeEntry} (h : RetypeTable.new env mm = .ok (some table)) (hx : table[i]? = some x)
    (hu : x.get.1 = .untyped) : ∃ e ∈ mm, e.entryType = .usable ∧ e.Holds i := by
  rcases new_slot_cases h hx with rfl | ⟨e, he, hin, e', htype, rfl⟩
  · exact absurd hu (by simp)
  · exact ⟨e, he, htype.symm.trans (MapEntry.usable_of_untyped hu), hin⟩

/-- A machine with one page of table storage and two frames to hand out. -/
def twoFrames : Machine where
  mem := fun _ => 0
  retypeMap := [RetypeEntry.unavailable, RetypeEntry.untyped, RetypeEntry.untyped]
  cr3 := ⟨⟨0, by decide⟩⟩
  trace := []

def frameOne : RawFrame := ⟨⟨0x1000, by decide⟩⟩

def usableMap : List MapEntry := [⟨0, 0x3000, .usable⟩]

theorem twoFrames_new : RetypeTable.new Env.dev usableMap = .ok (some twoFrames.retypeMap) := by
  decide +kernel

end Harmony
