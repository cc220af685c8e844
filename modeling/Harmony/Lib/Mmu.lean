import Harmony.Lib.Bytes

/-!
# The processor's page walk in user mode

A 64-bit x86 processor with four levels of paging and `NXE` set. User code that reads, writes or
fetches at a canonical address goes through one entry a level; each must be present and open to user
mode, a write needs `R/W` and a fetch needs `XD` clear at every level. An entry of level 3 or 2 with
`PS` maps a page of 1 GiB or 2 MiB. The walk sets accessed and dirty bits, which no walk reads; they
are left out.

* `walk`: the physical address of an access, `none` where it faults.
* `visited`: the tables a walk reads. A walk depends on them and on nothing else (`walk_congr`).
* `Within`: user code reads its tables in frames of one kind and reaches pages of another.
-/

namespace Harmony.Lib.Mmu

/-- What user code does at an address. -/
inductive Access where
  | read
  | write
  | fetch
  deriving DecidableEq

/-- The access is one that memory of these rights allows. -/
def Access.allowed (writable executeDisable : Bool) : Access → Bool
  | .read => true
  | .write => writable
  | .fetch => !executeDisable

/-! ## Entries -/

/-- `P`. -/
def present (w : BitVec 64) : Bool := w.getLsbD 0

/-- `R/W`. -/
def writable (w : BitVec 64) : Bool := w.getLsbD 1

/-- `U/S`. -/
def user (w : BitVec 64) : Bool := w.getLsbD 2

/-- `PS`. -/
def large (w : BitVec 64) : Bool := w.getLsbD 7

/-- `XD`. -/
def executeDisable (w : BitVec 64) : Bool := w.getLsbD 63

/-- Bits 12 to 51: where the next table or the page is. -/
def base (w : BitVec 64) : Nat := (w &&& 0x000FFFFFFFFFF000).toNat

/-- The entry lets user code through. -/
def permits (a : Access) (w : BitVec 64) : Bool :=
  present w && user w && a.allowed (writable w) (executeDisable w)

/-- The bytes an entry of a level maps. -/
def span (level : Nat) : Nat := 2 ^ (12 + 9 * (level - 1))

/-- The index of an address in a table of a level. -/
def index (v level : Nat) : Nat := v / span level % 512

/-- The entry ends the walk above level 1. -/
def endsAt (level : Nat) (w : BitVec 64) : Bool := (level == 3 || level == 2) && large w

/-! ## Walks -/

section Walks

variable (mem : Mem) (a : Access) (v : Nat)

/-- The entry for `v` in the table at `table`. -/
def entry (level table : Nat) : BitVec 64 := load64 mem (table + 8 * index v level)

/-- The walk from a table of the level on. -/
def walkFrom : Nat → Nat → Option Nat
  | 0, page => some (page + v % 4096)
  | lower + 1, table =>
    let w := entry mem v (lower + 1) table
    if permits a w then
      if endsAt (lower + 1) w then
        some (base w / span (lower + 1) * span (lower + 1) + v % span (lower + 1))
      else walkFrom lower (base w)
    else none

/-- The tables read from a table of the level on. -/
def visitedFrom : Nat → Nat → List Nat
  | 0, _ => []
  | lower + 1, table =>
    let w := entry mem v (lower + 1) table
    table :: if permits a w && !endsAt (lower + 1) w then visitedFrom lower (base w) else []

/-- The address is 48 bits, sign-extended. -/
def canonical : Bool := v < 2 ^ 47 || (2 ^ 64 - 2 ^ 47 ≤ v && v < 2 ^ 64)

/-- The physical address of an access, with CR3 at `root`. -/
def walk (root : Nat) : Option Nat := if canonical v then walkFrom mem a v 4 root else none

/-- The tables an access reads. -/
def visited (root : Nat) : List Nat := if canonical v then visitedFrom mem a v 4 root else []

end Walks

section Congr

variable {mem mem' : Mem} {a : Access} {v : Nat}

theorem walkFrom_succ (mem : Mem) (a : Access) (v lower table : Nat) :
    walkFrom mem a v (lower + 1) table =
      if permits a (entry mem v (lower + 1) table) then
        if endsAt (lower + 1) (entry mem v (lower + 1) table) then
          some (base (entry mem v (lower + 1) table) / span (lower + 1) * span (lower + 1) +
            v % span (lower + 1))
        else walkFrom mem a v lower (base (entry mem v (lower + 1) table))
      else none := rfl

theorem visitedFrom_succ (mem : Mem) (a : Access) (v lower table : Nat) :
    visitedFrom mem a v (lower + 1) table = table ::
      if permits a (entry mem v (lower + 1) table) &&
        !endsAt (lower + 1) (entry mem v (lower + 1) table)
      then visitedFrom mem a v lower (base (entry mem v (lower + 1) table)) else [] := rfl

theorem permits_of_absent (a : Access) {w : BitVec 64} (h : present w = false) :
    permits a w = false := by
  unfold permits
  rw [h]
  rfl

/-- A walk ends at an entry that does not let it through. -/
theorem walkFrom_of_closed {lower table : Nat}
    (h : permits a (entry mem v (lower + 1) table) = false) :
    walkFrom mem a v (lower + 1) table = none := by
  rw [walkFrom_succ, h]
  exact if_neg Bool.false_ne_true

theorem visitedFrom_of_closed {lower table : Nat}
    (h : permits a (entry mem v (lower + 1) table) = false) :
    visitedFrom mem a v (lower + 1) table = [table] := by
  rw [visitedFrom_succ, h]
  rfl

theorem index_lt (v level : Nat) : index v level < 512 := Nat.mod_lt _ (by decide)

/-- An entry is within its table's frame. -/
theorem entry_congr {level table : Nat} (halign : table % 4096 = 0)
    (h : ∀ x, x / 4096 = table / 4096 → mem' x = mem x) :
    entry mem' v level table = entry mem v level table := by
  refine load64_congr fun i hi => h _ ?_
  have hindex := index_lt v level
  omega

theorem base_aligned (w : BitVec 64) : base w % 4096 = 0 := by
  unfold base
  rw [BitVec.toNat_and, show (4096 : Nat) = 2 ^ 12 from rfl, Nat.and_mod_two_pow,
    show (0x000FFFFFFFFFF000 : BitVec 64).toNat % 2 ^ 12 = 0 from rfl, Nat.and_zero]

theorem walkFrom_congr {level : Nat} : ∀ {table : Nat}, table % 4096 = 0 →
    (∀ t ∈ visitedFrom mem a v level table, ∀ x, x / 4096 = t / 4096 → mem' x = mem x) →
    walkFrom mem' a v level table = walkFrom mem a v level table ∧
      visitedFrom mem' a v level table = visitedFrom mem a v level table := by
  induction level with
  | zero => exact fun _ _ => ⟨rfl, rfl⟩
  | succ lower ih =>
    intro table halign h
    rw [visitedFrom_succ] at h
    have hentry : entry mem' v (lower + 1) table = entry mem v (lower + 1) table :=
      entry_congr halign (h table List.mem_cons_self)
    rw [visitedFrom_succ, visitedFrom_succ, walkFrom_succ, walkFrom_succ, hentry]
    generalize entry mem v (lower + 1) table = w at h ⊢
    by_cases hnext : (permits a w && !endsAt (lower + 1) w) = true
    · rw [if_pos hnext] at h
      have hrest := ih (base_aligned w) fun t ht => h t (List.mem_cons_of_mem _ ht)
      rw [hrest.1, hrest.2]
      exact ⟨rfl, rfl⟩
    · -- the walk ends here, whatever the memory below holds
      rw [if_neg hnext, if_neg hnext]
      refine ⟨?_, rfl⟩
      by_cases hp : permits a w = true
      · have he : endsAt (lower + 1) w = true := by simpa [hp] using hnext
        rw [if_pos hp, if_pos hp, if_pos he, if_pos he]
      · rw [if_neg hp, if_neg hp]

/-- **A walk depends on the tables it reads**, and on nothing else. -/
theorem walk_congr {root : Nat} (halign : root % 4096 = 0)
    (h : ∀ t ∈ visited mem a v root, ∀ x, x / 4096 = t / 4096 → mem' x = mem x) :
    walk mem' a v root = walk mem a v root ∧ visited mem' a v root = visited mem a v root := by
  unfold walk visited at *
  split_ifs at * with hv
  · exact walkFrom_congr halign h
  · exact ⟨rfl, rfl⟩

end Congr

/-! ## Confined walks -/

/-- User code with CR3 at `root` reads tables in frames of `T` and reaches bytes in frames of `D`.
-/
structure Within (mem : Mem) (root : Nat) (T D : Nat → Prop) : Prop where
  tables : ∀ a v, ∀ t ∈ visited mem a v root, T (t / 4096)
  pages : ∀ a v x, walk mem a v root = some x → D (x / 4096)

section Within

variable {mem mem' : Mem} {root : Nat} {T T' D D' : Nat → Prop}

theorem Within.walk_congr (h : Within mem root T D) (halign : root % 4096 = 0)
    (hmem : ∀ x, T (x / 4096) → mem' x = mem x) (a : Access) (v : Nat) :
    walk mem' a v root = walk mem a v root ∧ visited mem' a v root = visited mem a v root := by
  refine Mmu.walk_congr halign fun t ht x hx => hmem x ?_
  rw [hx]
  exact h.tables a v t ht

/-- What is written outside the tables does not matter to the walks. -/
theorem Within.congr (h : Within mem root T D) (halign : root % 4096 = 0)
    (hmem : ∀ x, T (x / 4096) → mem' x = mem x) : Within mem' root T D := by
  refine ⟨fun a v t ht => ?_, fun a v x hx => ?_⟩
  · rw [(h.walk_congr halign hmem a v).2] at ht
    exact h.tables a v t ht
  · rw [(h.walk_congr halign hmem a v).1] at hx
    exact h.pages a v x hx

theorem Within.mono (h : Within mem root T D) (hT : ∀ n, T n → T' n) (hD : ∀ n, D n → D' n) :
    Within mem root T' D' :=
  ⟨fun a v t ht => hT _ (h.tables a v t ht), fun a v x hx => hD _ (h.pages a v x hx)⟩

/-- A table whose entries are closed to user code, or are those of a confined one. -/
theorem Within.of_entries {root' : Nat} (h : Within mem root T D) (hroot : T (root' / 4096))
    (hentry : ∀ v, present (entry mem v 4 root') = false ∨
      entry mem v 4 root' = entry mem v 4 root) : Within mem root' T D := by
  have hwalk : ∀ a v, (walk mem a v root' = none ∨ walk mem a v root' = walk mem a v root) ∧
      ∀ t ∈ visited mem a v root', t = root' ∨ t ∈ visited mem a v root := by
    intro a v
    unfold walk visited
    split_ifs with hv
    · rcases hentry v with hclosed | hsame
      · rw [walkFrom_of_closed (permits_of_absent a hclosed),
          visitedFrom_of_closed (permits_of_absent a hclosed)]
        exact ⟨.inl rfl, fun t ht => .inl (List.mem_singleton.mp ht)⟩
      · rw [walkFrom_succ, walkFrom_succ, visitedFrom_succ, visitedFrom_succ, hsame]
        refine ⟨.inr rfl, fun t ht => ?_⟩
        exact (List.mem_cons.mp ht).imp_right (List.mem_cons_of_mem _)
    · exact ⟨.inl rfl, fun t ht => absurd ht List.not_mem_nil⟩
  refine ⟨fun a v t ht => ?_, fun a v x hx => ?_⟩
  · rcases (hwalk a v).2 t ht with rfl | ht
    · exact hroot
    · exact h.tables a v t ht
  · rcases (hwalk a v).1 with hw | hw
    · rw [hw] at hx
      cases hx
    · rw [hw] at hx
      exact h.pages a v x hx

end Within

end Harmony.Lib.Mmu
