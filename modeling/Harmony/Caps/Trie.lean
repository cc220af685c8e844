import Mathlib.Data.Nat.Digits.Lemmas
import Harmony.Lib.Walk

/-!
# The integer trie of capability tables (`trie/src/lib.rs`)

A trie node has `COUNT` slots and a slot may lead to a child node. `TrieEntry::get` reads the id
as a positional number, least significant digit first: each digit but the last picks the slot whose
child is followed, the last one picks the slot that is returned. `Slot::child` may have effects (in
the kernel it clones and drops pointers), so `getInner` is written over any monad; the pure walk is
its instance at `Id`. The recursion is bounded by `fuel`, and a 32-bit id never needs more than 32
turns (`getInner_eq_walk`).

* `get_is_digit_walk`: the lookup is the walk along the digits, and how many nodes it visits.
* `get_no_alias`: in a tree two ids never name one slot.
* `slot_named_iff`: which slots of a linked table an id can name. The slot 0 of a table below the
  root has none, because its id would have a leading zero.
-/

namespace Harmony

open Harmony.Lib.Walk

/-- `SlotId<COUNT>`: an index below `COUNT`. -/
abbrev SlotId (COUNT : Nat) := Fin COUNT

/-- `SlotId::try_from`. -/
def SlotId.tryFrom (COUNT value : Nat) : Option (SlotId COUNT) :=
  if h : value < COUNT then some ⟨value, h⟩ else none

namespace TrieEntry

section Lookup

variable {M : Type → Type} [Monad M] {COUNT : Nat} [NeZero COUNT] {N : Type}

/-- `TrieEntry::get_inner`; `child this offset` is `this.slots[offset].child()`. -/
def getInner (child : N → SlotId COUNT → M (Option N)) :
    (fuel : Nat) → (this : N) → (id : Nat) → M (Option (N × SlotId COUNT))
  | 0, _, _ => pure none
  | fuel + 1, this, id =>
    let offset := Fin.ofNat COUNT id
    let id := id / COUNT
    if id = 0 then
      pure (some (this, offset))
    else do
      match ← child this offset with
      | none => pure none
      | some next => getInner child fuel next id

/-- `TrieEntry::get`. -/
def get (child : N → SlotId COUNT → M (Option N)) (this : N) (id : UInt32) :
    M (Option (N × SlotId COUNT)) :=
  getInner child 32 this id.toNat

end Lookup

section Digits

variable (COUNT : Nat) [NeZero COUNT]

/-- The digits of `id` in base `COUNT`, least significant first, without a leading zero; the id 0
has the one digit 0. -/
def digitsOf (id : Nat) : List (SlotId COUNT) :=
  if id = 0 then [0] else (Nat.digits COUNT id).map (Fin.ofNat COUNT)

variable {COUNT}

/-- The digits below the leading one: the slots whose children are followed. -/
abbrev pathOf (COUNT : Nat) [NeZero COUNT] (id : Nat) : List (SlotId COUNT) :=
  (digitsOf COUNT id).dropLast

theorem digitsOf_ne_nil (id : Nat) : digitsOf COUNT id ≠ [] := by
  unfold digitsOf
  split
  · exact List.cons_ne_nil _ _
  · rename_i h
    simpa [Nat.digits_eq_nil_iff_eq_zero] using h

/-- One turn of `get_inner` takes the lowest digit off. -/
theorem digitsOf_eq (hC : 2 ≤ COUNT) (id : Nat) :
    digitsOf COUNT id =
      if id / COUNT = 0 then [Fin.ofNat COUNT id]
      else Fin.ofNat COUNT id :: digitsOf COUNT (id / COUNT) := by
  have hdigit : Fin.ofNat COUNT (id % COUNT) = Fin.ofNat COUNT id := by
    apply Fin.ext
    simp
  by_cases hid : id = 0
  · subst hid
    simp [digitsOf]
  · rw [digitsOf, if_neg hid, Nat.digits_def' hC (Nat.pos_of_ne_zero hid), List.map_cons, hdigit]
    split
    · rename_i hq
      rw [hq, Nat.digits_zero, List.map_nil]
    · rename_i hq
      rw [digitsOf, if_neg hq]

/-- The digits are a numeral for the id. -/
theorem ofDigits_digitsOf (hC : 2 ≤ COUNT) (id : Nat) :
    Nat.ofDigits COUNT ((digitsOf COUNT id).map Fin.val) = id := by
  unfold digitsOf
  split
  · rename_i h
    simp [h]
  · have hid : (Nat.digits COUNT id).map (Fin.val ∘ Fin.ofNat COUNT) = Nat.digits COUNT id := by
      refine (List.map_congr_left fun d hd => ?_).trans (List.map_id _)
      exact Nat.mod_eq_of_lt (Nat.digits_lt_base hC hd)
    rw [List.map_map, hid, Nat.ofDigits_digits]

/-- The leading digit is not zero, unless it is the only one. -/
theorem leading_ne_zero (hC : 2 ≤ COUNT) {id : Nat} {ks : List (SlotId COUNT)} {s : SlotId COUNT}
    (h : digitsOf COUNT id = ks ++ [s]) : s ≠ 0 ∨ ks = [] := by
  unfold digitsOf at h
  split at h
  · right
    have hlen := congrArg List.length h
    simpa using hlen
  · left
    rename_i hid
    have hne : Nat.digits COUNT id ≠ [] := Nat.digits_ne_nil_iff_ne_zero.mpr hid
    have hlast := Nat.getLast_digit_ne_zero COUNT hid
    have hs : s = Fin.ofNat COUNT ((Nat.digits COUNT id).getLast hne) := by
      have hmap := congrArg List.getLast? h
      rw [List.getLast?_map, List.getLast?_eq_some_getLast hne] at hmap
      simpa using hmap.symm
    intro hzero
    apply hlast
    have hval := congrArg Fin.val (hs.symm.trans hzero)
    simpa [Nat.mod_eq_of_lt (Nat.digits_lt_base hC (List.getLast_mem hne))] using hval

/-- A numeral without a leading zero is the digits of its value. -/
theorem digitsOf_ofDigits (hC : 2 ≤ COUNT) {ks : List (SlotId COUNT)} {s : SlotId COUNT}
    (h : s ≠ 0 ∨ ks = []) :
    digitsOf COUNT (Nat.ofDigits COUNT ((ks ++ [s]).map Fin.val)) = ks ++ [s] := by
  induction ks with
  | nil =>
    rw [digitsOf_eq hC]
    have hs : Nat.ofDigits COUNT (([] ++ [s]).map Fin.val) = s.val := by simp
    rw [hs, if_pos (Nat.div_eq_of_lt s.isLt)]
    simp
  | cons k ks ih =>
    have hs : s ≠ 0 := h.resolve_right (List.cons_ne_nil _ _)
    have hval : Nat.ofDigits COUNT ((k :: ks ++ [s]).map Fin.val) =
        k.val + COUNT * Nat.ofDigits COUNT ((ks ++ [s]).map Fin.val) := by
      simp [Nat.ofDigits_cons]
    have hquot : Nat.ofDigits COUNT ((k :: ks ++ [s]).map Fin.val) / COUNT =
        Nat.ofDigits COUNT ((ks ++ [s]).map Fin.val) := by
      rw [hval, Nat.add_mul_div_left _ _ (by omega), Nat.div_eq_of_lt k.isLt, Nat.zero_add]
    have hpos : Nat.ofDigits COUNT ((ks ++ [s]).map Fin.val) ≠ 0 := by
      intro hzero
      -- the value 0 has the one digit 0, and the leading digit here is `s`
      have hrest := ih (.inl hs)
      rw [hzero] at hrest
      have hlast := congrArg List.getLast? hrest
      simp [digitsOf] at hlast
      exact hs hlast.symm
    have hfirst : Fin.ofNat COUNT (Nat.ofDigits COUNT ((k :: ks ++ [s]).map Fin.val)) = k := by
      apply Fin.ext
      rw [hval]
      simp [Nat.mod_eq_of_lt k.isLt]
    rw [digitsOf_eq hC, hquot, if_neg hpos, ih (.inl hs), hfirst]
    rfl

end Digits

section Walk

variable {COUNT : Nat} [NeZero COUNT] {N : Type}

/-- What a lookup is for: the slot that the digits of `id` name. -/
def walk (child : N → SlotId COUNT → Option N) (root : N) (id : Nat) : Option (N × SlotId COUNT) :=
  (follow child root (pathOf COUNT id)).map
    fun n => (n, (digitsOf COUNT id).getLast (digitsOf_ne_nil id))

/-- The first digit of a walk, taken on its own. -/
theorem walk_eq (hC : 2 ≤ COUNT) (child : N → SlotId COUNT → Option N) (this : N) (id : Nat) :
    walk child this id =
      if id / COUNT = 0 then some (this, Fin.ofNat COUNT id)
      else (child this (Fin.ofNat COUNT id)).bind fun next => walk child next (id / COUNT) := by
  have hdigits := digitsOf_eq hC id
  unfold walk pathOf
  split
  · rename_i hq
    rw [if_pos hq] at hdigits
    simp [hdigits]
  · rename_i hq
    rw [if_neg hq] at hdigits
    have hne : digitsOf COUNT (id / COUNT) ≠ [] := digitsOf_ne_nil (id / COUNT)
    simp only [hdigits, List.dropLast_cons_of_ne_nil hne, follow_cons, List.getLast_cons hne]
    rw [Option.map_bind]
    rfl

/-- With a turn for every digit `get_inner` is the walk: it never stops for want of fuel. -/
theorem getInner_eq_walk (hC : 2 ≤ COUNT) (child : N → SlotId COUNT → Option N) :
    ∀ (fuel : Nat) (this : N) (id : Nat), id < COUNT ^ (fuel + 1) →
      getInner (M := Id) child (fuel + 1) this id = walk child this id := by
  intro fuel
  induction fuel with
  | zero =>
    intro this id hid
    have hq : id / COUNT = 0 := Nat.div_eq_of_lt (by simpa using hid)
    rw [walk_eq hC, if_pos hq]
    simp only [getInner, if_pos hq]
    rfl
  | succ fuel ih =>
    intro this id hid
    rw [walk_eq hC, getInner]
    by_cases hq : id / COUNT = 0
    · simp only [if_pos hq]
      rfl
    · simp only [if_neg hq]
      have hnext : id / COUNT < COUNT ^ (fuel + 1) :=
        Nat.div_lt_of_lt_mul (by rwa [← Nat.pow_succ'])
      cases hc : child this (Fin.ofNat COUNT id) with
      | none => rfl
      | some next => exact ih next (id / COUNT) hnext

omit [NeZero COUNT] in
/-- A 32-bit id has at most 32 digits, whatever the base. -/
theorem id_lt_pow (hC : 2 ≤ COUNT) {fuel : Nat} (hfuel : 31 ≤ fuel) (id : UInt32) :
    id.toNat < COUNT ^ (fuel + 1) :=
  calc id.toNat < 2 ^ 32 := id.toNat_lt
    _ ≤ COUNT ^ 32 := Nat.pow_le_pow_left hC 32
    _ ≤ COUNT ^ (fuel + 1) := Nat.pow_le_pow_right (by omega) (by omega)

theorem get_eq_walk (hC : 2 ≤ COUNT) (child : N → SlotId COUNT → Option N) (root : N)
    (id : UInt32) : get (M := Id) child root id = walk child root id.toNat :=
  getInner_eq_walk hC child 31 root id.toNat (id_lt_pow hC (Nat.le_refl 31) id)

/-- `child`, writing down each node it is asked about. -/
def logged (child : N → SlotId COUNT → Option N) :
    N → SlotId COUNT → StateM (List N) (Option N) :=
  fun n s seen => (child n s, seen ++ [n])

/-- The nodes a lookup visits, in order: those it asked for a child and the one it ends in. -/
def visited (child : N → SlotId COUNT → Option N) (root : N) (id : UInt32) : List N :=
  match get (logged child) root id [] with
  | (some (n, _), seen) => seen ++ [n]
  | (none, seen) => seen

/-- One turn of a lookup that writes down what it visits. -/
theorem getInner_logged_step (child : N → SlotId COUNT → Option N) (fuel : Nat) (this : N)
    {id : Nat} (hq : id / COUNT ≠ 0) (seen : List N) :
    getInner (logged child) (fuel + 1) this id seen =
      match child this (Fin.ofNat COUNT id) with
      | none => (none, seen ++ [this])
      | some next => getInner (logged child) fuel next (id / COUNT) (seen ++ [this]) := by
  simp only [getInner, if_neg hq, bind, StateT.bind, logged]
  cases child this (Fin.ofNat COUNT id) <;> rfl

/-- A lookup asks one node for a child per digit below the leading one, and fewer when it fails. -/
theorem getInner_logged (hC : 2 ≤ COUNT) (child : N → SlotId COUNT → Option N) :
    ∀ (fuel : Nat) (this : N) (id : Nat), id < COUNT ^ (fuel + 1) → ∀ seen, ∃ nodes,
      getInner (logged child) (fuel + 1) this id seen = (walk child this id, seen ++ nodes) ∧
      nodes.length ≤ Nat.log COUNT id ∧
      ((walk child this id).isSome → nodes.length = Nat.log COUNT id) := by
  -- a last digit asks nobody
  have hlast : ∀ (fuel : Nat) (this : N) (id : Nat), id / COUNT = 0 → ∀ seen, ∃ nodes,
      getInner (logged child) (fuel + 1) this id seen = (walk child this id, seen ++ nodes) ∧
      nodes.length ≤ Nat.log COUNT id ∧
      ((walk child this id).isSome → nodes.length = Nat.log COUNT id) := by
    intro fuel this id hq seen
    have hlog : Nat.log COUNT id = 0 := by
      rw [Nat.log_eq_zero_iff]
      left
      exact (Nat.div_eq_zero_iff_lt (by omega)).mp hq
    refine ⟨[], ?_, by simp, by simp [hlog]⟩
    rw [walk_eq hC, if_pos hq, List.append_nil]
    simp only [getInner, if_pos hq]
    rfl
  intro fuel
  induction fuel with
  | zero =>
    intro this id hid
    exact hlast 0 this id (Nat.div_eq_of_lt (by simpa using hid))
  | succ fuel ih =>
    intro this id hid seen
    by_cases hq : id / COUNT = 0
    · exact hlast (fuel + 1) this id hq seen
    · have hnext : id / COUNT < COUNT ^ (fuel + 1) :=
        Nat.div_lt_of_lt_mul (by rwa [← Nat.pow_succ'])
      have hle : COUNT ≤ id := by
        by_contra hlt
        exact hq (Nat.div_eq_of_lt (by omega))
      have hlog : Nat.log COUNT id = Nat.log COUNT (id / COUNT) + 1 :=
        Nat.log_of_one_lt_of_le hC hle
      rw [walk_eq hC, if_neg hq, getInner_logged_step child _ this hq seen]
      cases hc : child this (Fin.ofNat COUNT id) with
      | none => exact ⟨[this], rfl, by rw [hlog]; exact Nat.le_add_left 1 _, by simp⟩
      | some next =>
        obtain ⟨nodes, hrun, hbound, hexact⟩ := ih next (id / COUNT) hnext (seen ++ [this])
        refine ⟨this :: nodes, hrun.trans (by simp), ?_, fun hsome => ?_⟩
        · rw [List.length_cons, hlog]
          exact Nat.succ_le_succ hbound
        · rw [List.length_cons, hexact hsome, hlog]

theorem visited_length (hC : 2 ≤ COUNT) (child : N → SlotId COUNT → Option N) (root : N)
    (id : UInt32) :
    (visited child root id).length ≤ Nat.log COUNT id.toNat + 1 ∧
    ((get (M := Id) child root id).isSome →
      (visited child root id).length = Nat.log COUNT id.toNat + 1) := by
  obtain ⟨nodes, hrun, hbound, hexact⟩ :=
    getInner_logged hC child 31 root id.toNat (id_lt_pow hC (Nat.le_refl 31) id) []
  rw [get_eq_walk hC]
  unfold visited get
  rw [hrun, List.nil_append]
  cases hw : walk child root id.toNat with
  | none =>
    exact ⟨Nat.le_succ_of_le hbound, fun h => absurd h (by simp)⟩
  | some p =>
    rw [hw] at hexact
    simp [hexact rfl]

/-- `TrieEntry::get` is the walk along the digits of the id, in every graph of nodes. It ends (more
fuel changes nothing), it fails exactly at a missing link, and it visits one node per digit. -/
theorem get_is_digit_walk (hC : 2 ≤ COUNT) (child : N → SlotId COUNT → Option N) (root : N)
    (id : UInt32) :
    (∃ ks s, Nat.ofDigits COUNT ((ks ++ [s]).map Fin.val) = id.toNat ∧ (s ≠ 0 ∨ ks = []) ∧
      (∀ fuel, 32 ≤ fuel → getInner (M := Id) child fuel root id.toNat =
        (follow child root ks).map fun n => (n, s)) ∧
      get (M := Id) child root id = (follow child root ks).map (fun n => (n, s)) ∧
      (get (M := Id) child root id = none ↔ ∃ a k, Uses child root ks a k ∧ child a k = none)) ∧
    (visited child root id).length ≤ Nat.log COUNT id.toNat + 1 ∧
    ((get (M := Id) child root id).isSome →
      (visited child root id).length = Nat.log COUNT id.toNat + 1) ∧
    (COUNT = 128 → (visited child root id).length ≤ 5) := by
  obtain ⟨hbound, hexact⟩ := visited_length hC child root id
  refine ⟨?_, hbound, hexact, ?_⟩
  · have hne : digitsOf COUNT id.toNat ≠ [] := digitsOf_ne_nil id.toNat
    have hsplit := List.dropLast_append_getLast hne
    refine ⟨pathOf COUNT id.toNat, (digitsOf COUNT id.toNat).getLast hne,
      ?_, leading_ne_zero hC hsplit.symm, ?_, get_eq_walk hC child root id, ?_⟩
    · rw [hsplit]
      exact ofDigits_digitsOf hC id.toNat
    · intro fuel hfuel
      obtain ⟨fuel, rfl⟩ := Nat.exists_eq_succ_of_ne_zero (Nat.ne_of_gt (by omega : 0 < fuel))
      exact getInner_eq_walk hC child fuel root id.toNat (id_lt_pow hC (by omega) id)
    · rw [get_eq_walk hC]
      unfold walk
      rw [Option.map_eq_none_iff, follow_eq_none]
  · rintro rfl
    have hlog : Nat.log 128 id.toNat < 5 :=
      Nat.log_lt_of_lt_pow' (by norm_num) (by have := id.toNat_lt; omega)
    omega

/-- A table linked into itself: the child of slot 5 is the table. -/
def selfLinked : Unit → SlotId 128 → Option Unit := fun _ s => if s = 5 then some () else none

theorem get_is_digit_walk_selfLinked : 2 ≤ 128 ∧
    (get (M := Id) selfLinked () 901).isSome ∧
    (visited selfLinked () 901).length = Nat.log 128 (901 : UInt32).toNat + 1 :=
  ⟨by decide, by decide, (get_is_digit_walk (by decide) selfLinked () 901).2.2.1 (by decide)⟩

end Walk

section Naming

variable {COUNT : Nat} [NeZero COUNT] {N R : Type}

/-- A slot: the link to a child node and what the slot itself holds. -/
structure Slot (N R : Type) where
  child : Option N
  resource : R
  deriving DecidableEq

/-- The child links of the nodes. -/
def links (nodes : N → SlotId COUNT → Slot N R) : N → SlotId COUNT → Option N :=
  fun n s => (nodes n s).child

/-- A lookup names the slot `s` of `n` exactly when the id's digits are a path to `n` and `s`. -/
theorem get_eq_some_iff (hC : 2 ≤ COUNT) {child : N → SlotId COUNT → Option N} {root n : N}
    {s : SlotId COUNT} {id : UInt32} :
    get (M := Id) child root id = some (n, s) ↔
      ∃ ks, digitsOf COUNT id.toNat = ks ++ [s] ∧ follow child root ks = some n := by
  have hne : digitsOf COUNT id.toNat ≠ [] := digitsOf_ne_nil id.toNat
  have hsplit := List.dropLast_append_getLast hne
  rw [get_eq_walk hC]
  unfold walk
  rw [Option.map_eq_some_iff]
  constructor
  · rintro ⟨a, ha, hpair⟩
    obtain ⟨rfl, rfl⟩ : a = n ∧ (digitsOf COUNT id.toNat).getLast hne = s := by simpa using hpair
    exact ⟨_, hsplit.symm, ha⟩
  · rintro ⟨ks, hdigits, hn⟩
    have hpath : pathOf COUNT id.toNat = ks := by simp [pathOf, hdigits]
    have hlast : (digitsOf COUNT id.toNat).getLast hne = s := by simp [hdigits]
    exact ⟨n, by rw [hpath]; exact hn, by rw [hlast]⟩

/-- In a tree a slot is named by one id at most. -/
theorem id_unique (hC : 2 ≤ COUNT) {child : N → SlotId COUNT → Option N} {root : N}
    (htree : IsTree child root) {i j : UInt32} {p : N × SlotId COUNT}
    (hi : get (M := Id) child root i = some p) (hj : get (M := Id) child root j = some p) :
    i = j := by
  obtain ⟨n, s⟩ := p
  obtain ⟨ks, hks, hkn⟩ := (get_eq_some_iff hC).mp hi
  obtain ⟨js, hjs, hjn⟩ := (get_eq_some_iff hC).mp hj
  have hpaths : ks = js := htree.keys_unique hkn hjn
  apply UInt32.toNat_inj.mp
  rw [← ofDigits_digitsOf hC i.toNat, ← ofDigits_digitsOf hC j.toNat, hks, hjs, hpaths]

/-- The slot `s` of a table reached along `os` has a name only if `s` is a leading digit. -/
theorem leading_of_named (hC : 2 ≤ COUNT) {child : N → SlotId COUNT → Option N} {root n : N}
    (htree : IsTree child root) {os : List (SlotId COUNT)} (hn : follow child root os = some n)
    {s : SlotId COUNT} {id : UInt32} (hid : get (M := Id) child root id = some (n, s)) :
    s ≠ 0 ∨ os = [] := by
  obtain ⟨ks, hks, hkn⟩ := (get_eq_some_iff hC).mp hid
  obtain rfl : ks = os := htree.keys_unique hkn hn
  exact leading_ne_zero hC hks

/-- A root table with one table linked below its slot 5; every slot holds its own index. -/
def oneLink : Fin 2 → SlotId 128 → Slot (Fin 2) Nat :=
  fun n s => ⟨if n = 0 ∧ s = 5 then some 1 else none, s.val⟩

theorem oneLink_isTree : IsTree (links oneLink) 0 := by
  have hlink : ∀ {n : Fin 2} {s : SlotId 128} {c : Fin 2},
      links oneLink n s = some c → (n = 0 ∧ s = 5) ∧ 1 = c := by
    intro n s c h
    simpa [links, oneLink] using h
  constructor
  · intro a b j k n ha hb
    obtain ⟨⟨rfl, rfl⟩, _⟩ := hlink ha
    obtain ⟨⟨rfl, rfl⟩, _⟩ := hlink hb
    exact ⟨rfl, rfl⟩
  · intro a k h
    obtain ⟨_, hroot⟩ := hlink h
    exact absurd hroot (by decide)

/-- Which slots of a linked table have an id: all of the root's, and all but slot 0 of every other
table, in so far as the id fits in 32 bits. -/
theorem slot_named_iff (hC : 2 ≤ COUNT) {child : N → SlotId COUNT → Option N} {root n : N}
    (htree : IsTree child root) {os : List (SlotId COUNT)} (hn : follow child root os = some n)
    {s : SlotId COUNT} (hfit : Nat.ofDigits COUNT ((os ++ [s]).map Fin.val) < 2 ^ 32) :
    (∃ id : UInt32, get (M := Id) child root id = some (n, s)) ↔ s ≠ 0 ∨ os = [] := by
  constructor
  · rintro ⟨id, hid⟩
    exact leading_of_named hC htree hn hid
  · intro hs
    refine ⟨UInt32.ofNat (Nat.ofDigits COUNT ((os ++ [s]).map Fin.val)), ?_⟩
    rw [get_eq_some_iff hC]
    refine ⟨os, ?_, hn⟩
    rw [UInt32.toNat_ofNat_of_lt' hfit, digitsOf_ofDigits hC hs]

theorem oneLink_follow : follow (links oneLink) 0 [5] = some 1 := rfl

/-- Slot 3 of the linked table has an id, and so has slot 0 of the root. -/
theorem slot_named_iff_oneLink :
    (∃ id : UInt32, get (M := Id) (links oneLink) 0 id = some (1, 3)) ∧
    (∃ id : UInt32, get (M := Id) (links oneLink) 0 id = some (0, 0)) := by
  have hroot : follow (links oneLink) 0 [] = some 0 := rfl
  constructor
  · exact (slot_named_iff (by decide) oneLink_isTree oneLink_follow (by decide)).mpr
      (.inl (by decide))
  · exact (slot_named_iff (by decide) oneLink_isTree hroot (by decide)).mpr (.inr rfl)

/-- Slot 0 of the linked table has none, although its number `5 + 0 * 128` fits: that id stands for
slot 5 of the root. -/
theorem linked_slot_zero_unnamed :
    IsTree (links oneLink) 0 ∧ follow (links oneLink) 0 [5] = some 1 ∧
    Nat.ofDigits 128 (([5, 0] : List (SlotId 128)).map Fin.val) < 2 ^ 32 ∧
    get (M := Id) (links oneLink) 0 5 = some (0, 5) ∧
    ¬ ∃ id : UInt32, get (M := Id) (links oneLink) 0 id = some (1, 0) := by
  refine ⟨oneLink_isTree, oneLink_follow, by decide, rfl, ?_⟩
  rintro ⟨id, hid⟩
  obtain hs | hos := leading_of_named (by decide) oneLink_isTree oneLink_follow hid
  · exact hs rfl
  · exact absurd hos (List.cons_ne_nil _ _)

end Naming

section Writing

variable {COUNT : Nat} {N R : Type} [DecidableEq N]

/-- The nodes with the slot `s` of `n` replaced. -/
def setSlot (nodes : N → SlotId COUNT → Slot N R) (n : N) (s : SlotId COUNT) (slot : Slot N R) :
    N → SlotId COUNT → Slot N R :=
  Function.update nodes n (Function.update (nodes n) s slot)

@[simp] theorem setSlot_same (nodes : N → SlotId COUNT → Slot N R) (n : N) (s : SlotId COUNT)
    (slot : Slot N R) : setSlot nodes n s slot n s = slot := by
  simp [setSlot]

theorem setSlot_other {nodes : N → SlotId COUNT → Slot N R} {n : N} {s : SlotId COUNT}
    {slot : Slot N R} {a : N} {t : SlotId COUNT} (h : ¬ (a = n ∧ t = s)) :
    setSlot nodes n s slot a t = nodes a t := by
  unfold setSlot
  by_cases ha : a = n
  · subst ha
    have ht : t ≠ s := fun hts => h ⟨rfl, hts⟩
    simp [ht]
  · simp [ha]

/-- Writing a resource moves no link. -/
theorem links_setResource (nodes : N → SlotId COUNT → Slot N R) (n : N) (s : SlotId COUNT) (r : R) :
    links (setSlot nodes n s { nodes n s with resource := r }) = links nodes := by
  funext a t
  unfold links
  by_cases h : a = n ∧ t = s
  · obtain ⟨rfl, rfl⟩ := h
    rw [setSlot_same]
  · rw [setSlot_other h]

variable [NeZero COUNT]

/-- The resource a lookup finds. -/
def found (nodes : N → SlotId COUNT → Slot N R) (root : N) (id : UInt32) : Option R :=
  (get (M := Id) (links nodes) root id).map fun p => (nodes p.1 p.2).resource

/-- Capability ids do not alias: in a tree two ids never name one slot, so a write through one id
leaves what every other id finds as it was. -/
theorem get_no_alias (hC : 2 ≤ COUNT) {nodes : N → SlotId COUNT → Slot N R} {root : N}
    (htree : IsTree (links nodes) root) {i : UInt32} {p : N × SlotId COUNT}
    (hi : get (M := Id) (links nodes) root i = some p) :
    (∀ j, get (M := Id) (links nodes) root j = some p → i = j) ∧
    ∀ (r : R) (j : UInt32), j ≠ i →
      found (setSlot nodes p.1 p.2 { nodes p.1 p.2 with resource := r }) root j =
        found nodes root j := by
  refine ⟨fun j hj => id_unique hC htree hi hj, fun r j hji => ?_⟩
  unfold found
  rw [links_setResource]
  cases hj : get (M := Id) (links nodes) root j with
  | none => rfl
  | some q =>
    simp only [Option.map_some, Option.some.injEq]
    rw [setSlot_other]
    rintro ⟨h₁, h₂⟩
    obtain rfl : q = p := Prod.ext h₁ h₂
    exact hji (id_unique hC htree hj hi)

theorem get_no_alias_oneLink :
    get (M := Id) (links oneLink) 0 5 = some (0, 5) ∧
    found (setSlot oneLink 0 5 { oneLink 0 5 with resource := 9 }) 0 133 = found oneLink 0 133 :=
  have h5 : get (M := Id) (links oneLink) 0 5 = some (0, 5) := rfl
  ⟨h5, (get_no_alias (by decide) oneLink_isTree h5).2 9 133 (by decide)⟩

end Writing

end TrieEntry
end Harmony
