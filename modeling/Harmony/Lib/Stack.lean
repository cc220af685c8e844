import Harmony.Lib.X86

/-!
# The stack as a list of words

What is on the stack, from its top, is a list of words; a push puts a word in front of it, a pop
takes one off, and a routine that keeps to its own part of the stack leaves it alone. So code that
pushes registers, calls something and pops them again in the opposite order is followed on lists.

* `Holds.pushAll`, `Holds.pops`, `Holds.iretq`, `Holds.ret`: the instructions.
* `Called`: what a caller may rely on after a call.
-/

namespace Harmony.Lib.X86

namespace Cpu

/-- `ret`. -/
def ret (c : Cpu) : Cpu := { c with rip := c.top, rsp := c.rsp + 8 }

/-- The stack has the words `ws` on top, within the address space. -/
structure Holds (c : Cpu) (ws : List (BitVec 64)) : Prop where
  fits : c.rsp.toNat + 8 * ws.length < 2 ^ 64
  words : ∀ k w, ws[k]? = some w → load64 c.mem (c.rsp.toNat + 8 * k) = w

section Holds

variable {c d : Cpu} {w : BitVec 64} {ws vs : List (BitVec 64)}

theorem Holds.nil (c : Cpu) : c.Holds [] := ⟨c.rsp.isLt, fun _ _ h => (nomatch h)⟩

/-- The words are where they were, and nothing has been written over them. -/
theorem Holds.congr (h : c.Holds ws) (hrsp : d.rsp = c.rsp)
    (hmem : ∀ x, c.rsp.toNat ≤ x → x < c.rsp.toNat + 8 * ws.length → d.mem x = c.mem x) :
    d.Holds ws := by
  refine ⟨by rw [hrsp]; exact h.fits, fun k w hk => ?_⟩
  have hlt : k < ws.length := (List.getElem?_eq_some_iff.mp hk).1
  rw [hrsp, ← h.words k w hk]
  exact load64_congr fun i hi => hmem _ (by omega) (by omega)

theorem Holds.top (h : c.Holds (w :: ws)) : c.top = w := h.words 0 w rfl

theorem rsp_add_eight (h : c.rsp.toNat + 8 < 2 ^ 64) : (c.rsp + 8).toNat = c.rsp.toNat + 8 := by
  rw [BitVec.toNat_add]
  exact Nat.mod_eq_of_lt h

/-- The first word is taken off. -/
theorem Holds.tail (h : c.Holds (w :: ws)) (hrsp : d.rsp = c.rsp + 8) (hmem : d.mem = c.mem) :
    d.Holds ws := by
  have hfits := h.fits
  rw [List.length_cons] at hfits
  have hd : d.rsp.toNat = c.rsp.toNat + 8 := by
    rw [hrsp]
    exact rsp_add_eight (by omega)
  refine ⟨by omega, fun k w' hk => ?_⟩
  rw [hd, hmem, ← h.words (k + 1) w' hk]
  congr 1
  omega

theorem Holds.push (h : c.Holds ws) (hroom : 8 ≤ c.rsp.toNat) (w : BitVec 64) :
    (c.push w).Holds (w :: ws) := by
  have hfits := h.fits
  have hrsp := push_rsp (w := w) hroom
  refine ⟨by rw [List.length_cons]; omega, fun k v hk => ?_⟩
  rw [hrsp, push_mem hroom]
  cases k with
  | zero =>
    obtain rfl : w = v := Option.some.inj hk
    exact load64_store64 _ _ _
  | succ k =>
    rw [load64_store64_of_disjoint (by omega), ← h.words k v hk]
    congr 1
    omega

/-- The stack pointer is moved past a word that is not written. -/
theorem Holds.skip (h : c.Holds ws) (hroom : 8 ≤ c.rsp.toNat) (hrsp : d.rsp = c.rsp - 8)
    (hmem : d.mem = c.mem) : d.Holds (load64 c.mem (c.rsp.toNat - 8) :: ws) := by
  have hd : d.rsp.toNat = c.rsp.toNat - 8 := by
    rw [hrsp]
    exact push_rsp (w := 0) hroom
  have hfits := h.fits
  refine ⟨by rw [List.length_cons]; omega, fun k v hk => ?_⟩
  rw [hd, hmem]
  cases k with
  | zero => exact Option.some.inj hk
  | succ k =>
    rw [← h.words k v hk]
    congr 1
    omega

/-- **Pushing a list** leaves it on the stack, last word first. -/
theorem Holds.pushAll (h : c.Holds ws) (hroom : 8 * vs.length ≤ c.rsp.toNat) :
    (c.pushAll vs).Holds (vs.reverse ++ ws) := by
  induction vs generalizing c ws with
  | nil => exact h
  | cons v vs ih =>
    rw [List.length_cons] at hroom
    have hrsp := push_rsp (c := c) (w := v) (by omega)
    rw [pushAll_cons, List.reverse_cons, List.append_assoc]
    exact ih (h.push (by omega) v) (by omega)

/-- Pushing changes the stack pointer and memory. -/
theorem pushAll_eq (c : Cpu) (vs : List (BitVec 64)) :
    c.pushAll vs = { c with rsp := (c.pushAll vs).rsp, mem := (c.pushAll vs).mem } := by
  induction vs generalizing c with
  | nil => rfl
  | cons v vs ih => exact ih (c.push v)

/-- Pushing writes below the stack pointer, and no further than it goes. -/
theorem pushAll_mem (hroom : 8 * vs.length ≤ c.rsp.toNat) {x : Nat}
    (hx : x < c.rsp.toNat - 8 * vs.length ∨ c.rsp.toNat ≤ x) : (c.pushAll vs).mem x = c.mem x := by
  induction vs generalizing c with
  | nil => rfl
  | cons v vs ih =>
    rw [List.length_cons] at hroom hx
    have hrsp := push_rsp (c := c) (w := v) (by omega)
    rw [pushAll_cons, ih (by omega) (by omega), push_mem (by omega)]
    exact store_apply_of_not_mem (by omega)

/-- **Popping registers** takes their words off the stack, and leaves all else. -/
theorem Holds.pops (flags : BitVec 64 → BitVec 64 → BitVec 64) (rs : List Reg)
    (value : Reg → BitVec 64) (hnodup : rs.Nodup) (h : c.Holds (rs.map value ++ ws)) :
    ∃ reg rsp, c.execAll flags (rs.map .pop) = { c with reg := reg, rsp := rsp } ∧
      rsp.toNat = c.rsp.toNat + 8 * rs.length ∧ (∀ r ∈ rs, reg r = value r) ∧
      (∀ r, r ∉ rs → reg r = c.reg r) ∧
      ({ c with reg := reg, rsp := rsp } : Cpu).Holds ws := by
  induction rs generalizing c with
  | nil => exact ⟨c.reg, c.rsp, rfl, rfl, fun r hr => absurd hr List.not_mem_nil, fun _ _ => rfl, h⟩
  | cons r rs ih =>
    obtain ⟨hr, hnodup⟩ := List.nodup_cons.mp hnodup
    have hnext : ({ c.setReg r c.top with rsp := c.rsp + 8 } : Cpu).Holds (rs.map value ++ ws) :=
      h.tail rfl rfl
    have hfits := h.fits
    rw [List.map_cons, List.cons_append, List.length_cons] at hfits
    have hrsp := rsp_add_eight (c := c) (by omega)
    obtain ⟨reg, rsp, heq, hlast, hvalues, hothers, hrest⟩ := ih hnodup hnext
    refine ⟨reg, rsp, heq, ?_, fun q hq => ?_, fun q hq => ?_, hrest⟩
    · rw [List.length_cons, hlast, hrsp]
      omega
    · rcases List.mem_cons.mp hq with rfl | hq
      · exact (hothers q hr).trans ((if_pos rfl).trans h.top)
      · exact hvalues q hq
    · rw [List.mem_cons, not_or] at hq
      exact (hothers q hq.2).trans (if_neg hq.1)

/-- **`iretq`** loads the frame on top of the stack. -/
theorem Holds.iretq (flags : BitVec 64 → BitVec 64 → BitVec 64) {rip cs rflags rsp ss : BitVec 64}
    (h : c.Holds [rip, cs, rflags, rsp, ss]) :
    c.exec flags .iretq = { c with
      rip := rip, cs := cs.setWidth 16, rflags := rflags, rsp := rsp, ss := ss.setWidth 16 } := by
  have hfits := h.fits
  simp only [List.length_cons, List.length_nil] at hfits
  have hpeek : ∀ k w, [rip, cs, rflags, rsp, ss][k]? = some w → c.peek k = w := by
    intro k w hk
    have hlt : k < 5 := (List.getElem?_eq_some_iff.mp hk).1
    unfold peek
    rw [BitVec.toNat_add, BitVec.toNat_ofNat, Nat.mod_eq_of_lt (show 8 * k < 2 ^ 64 by omega),
      Nat.mod_eq_of_lt (by omega)]
    exact h.words k w hk
  simp only [exec, hpeek 0 _ rfl, hpeek 1 _ rfl, hpeek 2 _ rfl, hpeek 3 _ rfl, hpeek 4 _ rfl]

theorem Holds.ret (h : c.Holds (w :: ws)) : c.ret = { c with rip := w, rsp := c.rsp + 8 } := by
  unfold Cpu.ret
  rw [h.top]

end Holds

/-- A routine called in `s` has returned in `h`: its return address is off the stack, the registers
in `saved` and the state of the processor are as they were, and so is memory outside `writes`. -/
structure Called (saved : List Reg) (writes : Nat → Prop) (s h : Cpu) : Prop where
  rsp : h.rsp = s.rsp + 8
  reg : ∀ r ∈ saved, h.reg r = s.reg r
  seg : h.seg = s.seg
  cr3 : h.cr3 = s.cr3
  mem : ∀ x, ¬ writes x → h.mem x = s.mem x

/-- **What is on the caller's stack stays**, where the routine writes below it. -/
theorem Called.holds {saved : List Reg} {writes : Nat → Prop} {s h : Cpu} {w : BitVec 64}
    {ws : List (BitVec 64)} (hc : Called saved writes s h) (hs : s.Holds (w :: ws))
    (hkeeps : ∀ x, s.rsp.toNat + 8 ≤ x → x < s.rsp.toNat + 8 * (ws.length + 1) → ¬ writes x) :
    h.Holds ws := by
  have hfits := hs.fits
  rw [List.length_cons] at hfits
  have htail : ({ s with rsp := s.rsp + 8 } : Cpu).Holds ws := hs.tail rfl rfl
  have hrsp : ({ s with rsp := s.rsp + 8 } : Cpu).rsp.toNat = s.rsp.toNat + 8 :=
    rsp_add_eight (c := s) (by omega)
  refine htail.congr hc.rsp fun x hx hlt => hc.mem x (hkeeps x ?_ ?_)
  · omega
  · omega

end Cpu

end Harmony.Lib.X86
