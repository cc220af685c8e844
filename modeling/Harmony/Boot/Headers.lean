import Harmony.Boot.Load

/-!
# Where the program headers are read

`Process::load` (`arch/x86_64/bootup.rs`) checks that the program-header table lies in the image
and then reads it with `ProgramHeader::from_raw_parts`, `e_phnum` records of 56 bytes from `e_phoff`
on. The check measures something else: it takes `e_phentsize` for the size of a record, adds with
wrapping arithmetic in the `release` profile, and compares with `>` where `>=` would do.

* `checkHeaders_iff`: which tables get past the checks.
* `headers_read_inside_iff`: the headers read lie in the image, and no table that fits is rejected,
  for every image but those of three kinds: the end of the table wraps, the records are said to be
  shorter than they are, or the table ends with the image.
-/

namespace Harmony

open Lib

/-- The bytes of a `ProgramHeader`. -/
def sizeofPhdr : Nat := 56

section Headers

variable (env : Env) (goblin : Goblin) (program : Program)

/-- The checks of `readHeaders`. -/
def checkHeaders : KM Header := do
  assert (sizeofEhdr ≤ program.len) "program[..SIZEOF_EHDR]"
  let header := goblin.header program.bytes
  let phEnd ← orPanic (env.add header.phoff (header.phentsize * header.phnum))
  assert (program.len > phEnd) "program.len() > e_phoff + e_phentsize * e_phnum"
  assert ((program.addr + header.phoff) % 2 ^ 64 % 8 == 0)
    "phdr_start as usize % core::mem::align_of::<ProgramHeader>() == 0"
  pure header

/-- The headers are read once the checks are passed. -/
theorem readHeaders_eq : readHeaders env goblin program = checkHeaders env goblin program >>=
    fun header => match goblin.programHeaders program header.phoff header.phnum with
      | some phdrs => pure (header, phdrs)
      | none => throw .fault := by
  unfold readHeaders checkHeaders
  rw [bind_assoc]
  refine bind_congr fun _ => ?_
  rw [bind_assoc]
  refine bind_congr fun phEnd => ?_
  rw [bind_assoc]
  refine bind_congr fun _ => ?_
  rw [bind_assoc]
  refine bind_congr fun _ => ?_
  exact (pure_bind _ _).symm

/-- The image gets past the checks. -/
def PassesChecks (m : Machine) : Prop :=
  ∃ header m', checkHeaders env goblin program m = .ok header m'

/-- The records that `from_raw_parts` reads lie in an image of `len` bytes. -/
def Header.Inside (h : Header) (len : Nat) : Prop :=
  ∀ k, k < h.phnum → h.phoff + sizeofPhdr * k + sizeofPhdr ≤ len

/-- The types of the fields: `u64` and twice `u16`. -/
structure Header.InRange (h : Header) : Prop where
  phoff_lt : h.phoff < 2 ^ 64
  phentsize_lt : h.phentsize < 2 ^ 16
  phnum_lt : h.phnum < 2 ^ 16

/-- The end of the table, as the check computes it before any wrapping. -/
def Header.tableEnd (h : Header) : Nat := h.phoff + h.phentsize * h.phnum

/-- **The law**: what is read lies in the image, and a table that fits is not rejected. -/
structure ReadsInside (m : Machine) : Prop where
  inside : PassesChecks env goblin program m → (goblin.header program.bytes).Inside program.len
  accepts : sizeofEhdr ≤ program.len → (goblin.header program.bytes).phentsize = sizeofPhdr →
    (goblin.header program.bytes).phoff + sizeofPhdr * (goblin.header program.bytes).phnum ≤
      program.len →
    (program.addr + (goblin.header program.bytes).phoff) % 8 = 0 →
    PassesChecks env goblin program m

/-- A table the checks misjudge: it wraps to an end inside the image, it is longer than they
reckon, or it ends where the image does. -/
def Header.Misjudged (h : Header) (len : Nat) : Prop :=
  (env.overflowChecks = false ∧ 2 ^ 64 ≤ h.tableEnd ∧ h.tableEnd - 2 ^ 64 < len) ∨
    (h.tableEnd < len ∧ len < h.phoff + sizeofPhdr * h.phnum) ∨
    (h.phentsize = sizeofPhdr ∧ h.tableEnd = len)

end Headers

section Checks

variable {env : Env} {goblin : Goblin} {program : Program}

/-- **What gets past the checks.** -/
theorem checkHeaders_iff (m : Machine) : PassesChecks env goblin program m ↔
    sizeofEhdr ≤ program.len ∧ (program.addr + (goblin.header program.bytes).phoff) % 8 = 0 ∧
      ∃ phEnd, env.add (goblin.header program.bytes).phoff
        ((goblin.header program.bytes).phentsize * (goblin.header program.bytes).phnum) =
          .ok phEnd ∧ phEnd < program.len := by
  have hmod : (program.addr + (goblin.header program.bytes).phoff) % 2 ^ 64 % 8 =
      (program.addr + (goblin.header program.bytes).phoff) % 8 := by omega
  unfold PassesChecks checkHeaders
  constructor
  · rintro ⟨header, m', h⟩
    obtain ⟨_, _, hehdr, h⟩ := bind_eq_ok h
    obtain ⟨phEnd, _, hadd, h⟩ := bind_eq_ok h
    obtain ⟨_, _, hlen, h⟩ := bind_eq_ok h
    obtain ⟨_, _, hal, _⟩ := bind_eq_ok h
    have hal' := (assert_eq_ok hal).1
    rw [hmod] at hal'
    exact ⟨by simpa using (assert_eq_ok hehdr).1, by simpa using hal', phEnd,
      (orPanic_eq_ok hadd).1,
      by simpa using (assert_eq_ok hlen).1⟩
  · rintro ⟨hehdr, hal, phEnd, hadd, hlt⟩
    refine ⟨goblin.header program.bytes, m, ?_⟩
    have h1 : assert (decide (sizeofEhdr ≤ program.len)) "program[..SIZEOF_EHDR]" m = .ok () m := by
      rw [decide_eq_true hehdr]
      rfl
    have h2 : assert (decide (program.len > phEnd))
        "program.len() > e_phoff + e_phentsize * e_phnum" m = .ok () m := by
      rw [decide_eq_true hlt]
      rfl
    rw [bind_of_eq_ok h1, orPanic_ok_bind _ m hadd, bind_of_eq_ok h2, hmod, hal]
    rfl

/-- All records lie in the image iff the last one does. -/
theorem Header.inside_iff (h : Header) (len : Nat) :
    h.Inside len ↔ h.phnum = 0 ∨ h.phoff + sizeofPhdr * h.phnum ≤ len := by
  constructor
  · intro hin
    rcases Nat.eq_zero_or_pos h.phnum with hz | hpos
    · exact Or.inl hz
    · have hlast := hin (h.phnum - 1) (by omega)
      simp only [sizeofPhdr] at hlast ⊢
      exact Or.inr (by omega)
  · rintro (hz | hle) k hk
    · omega
    · simp only [sizeofPhdr] at hle ⊢
      omega

/-- The table ends where the check says, modulo `2 ^ 64`. -/
theorem checkHeaders_iff_tableEnd (env : Env) (hr : (goblin.header program.bytes).InRange)
    (hlen : program.len < 2 ^ 63) (m : Machine) : PassesChecks env goblin program m ↔
      (sizeofEhdr ≤ program.len ∧ (program.addr + (goblin.header program.bytes).phoff) % 8 = 0) ∧
        ((goblin.header program.bytes).tableEnd < program.len ∨
          (env.overflowChecks = false ∧ 2 ^ 64 ≤ (goblin.header program.bytes).tableEnd ∧
            (goblin.header program.bytes).tableEnd - 2 ^ 64 < program.len)) := by
  rw [checkHeaders_iff, and_assoc]
  refine and_congr_right fun _ => and_congr_right fun _ => ?_
  have hphoff := hr.phoff_lt
  have hmul : (goblin.header program.bytes).phentsize * (goblin.header program.bytes).phnum <
      2 ^ 16 * 2 ^ 16 := Nat.mul_lt_mul'' hr.phentsize_lt hr.phnum_lt
  unfold Header.tableEnd
  generalize (goblin.header program.bytes).phentsize * (goblin.header program.bytes).phnum = size
    at hmul ⊢
  constructor
  · rintro ⟨phEnd, hadd, hlt⟩
    rcases Env.add_eq_ok hadd with ⟨_, rfl⟩ | ⟨hoff, hge, rfl⟩
    · exact Or.inl hlt
    · exact Or.inr ⟨hoff, hge, by omega⟩
  · rintro (hlt | ⟨hoff, hge, hlt⟩)
    · exact ⟨_, Env.add_of_lt env (by omega), hlt⟩
    · refine ⟨_, Env.add_wraps hoff hge, ?_⟩
      omega

/-- **Where the headers are read.** -/
theorem headers_read_inside_iff (env : Env) (goblin : Goblin) (program : Program) (m : Machine)
    (hr : (goblin.header program.bytes).InRange) (hlen : program.len < 2 ^ 63) :
    ReadsInside env goblin program m ↔
      ¬ (sizeofEhdr ≤ program.len ∧
        (program.addr + (goblin.header program.bytes).phoff) % 8 = 0 ∧
        (goblin.header program.bytes).Misjudged env program.len) := by
  have hpass := checkHeaders_iff_tableEnd env hr hlen m
  have hinside := Header.inside_iff (goblin.header program.bytes) program.len
  have hphoff := hr.phoff_lt
  have hmul : (goblin.header program.bytes).phentsize * (goblin.header program.bytes).phnum <
      2 ^ 16 * 2 ^ 16 := Nat.mul_lt_mul'' hr.phentsize_lt hr.phnum_lt
  constructor
  · rintro hlaw ⟨hehdr, hal, hwraps | ⟨hlt, hlong⟩ | ⟨hsize, hend⟩⟩
    · rcases hinside.mp (hlaw.inside (hpass.mpr ⟨⟨hehdr, hal⟩, Or.inr hwraps⟩)) with hz | hle
      · have hge := hwraps.2.1
        rw [Header.tableEnd, hz, Nat.mul_zero, Nat.add_zero] at hge
        omega
      · have hge := hwraps.2.1
        unfold Header.tableEnd at hge
        omega
    · rcases hinside.mp (hlaw.inside (hpass.mpr ⟨⟨hehdr, hal⟩, Or.inl hlt⟩)) with hz | hle
      · rw [Header.tableEnd, hz, Nat.mul_zero] at hlt
        rw [hz, Nat.mul_zero] at hlong
        omega
      · omega
    · rw [Header.tableEnd, hsize] at hend
      obtain ⟨_, hlt | ⟨_, hge, _⟩⟩ := hpass.mp (hlaw.accepts hehdr hsize hend.le hal)
      · rw [Header.tableEnd, hsize] at hlt
        omega
      · rw [Header.tableEnd, hsize] at hge
        omega
  · intro hno
    constructor
    · intro hp
      obtain ⟨⟨hehdr, hal⟩, hlt | hwraps⟩ := hpass.mp hp
      · rw [hinside]
        by_contra hout
        rw [not_or, Nat.not_le] at hout
        exact hno ⟨hehdr, hal, Or.inr (Or.inl ⟨hlt, hout.2⟩)⟩
      · exact absurd ⟨hehdr, hal, Or.inl hwraps⟩ hno
    · intro hehdr hsize hfits hal
      refine hpass.mpr ⟨⟨hehdr, hal⟩, Or.inl ?_⟩
      have hend : (goblin.header program.bytes).tableEnd ≤ program.len := by
        rw [Header.tableEnd, hsize]
        exact hfits
      rcases Nat.lt_or_eq_of_le hend with hlt | heq
      · exact hlt
      · exact absurd ⟨hehdr, hal, Or.inr (Or.inr ⟨hsize, heq⟩)⟩ hno

end Checks

/-! ## Images -/

/-- An image of `len` bytes at a page boundary. -/
def imageOf (len : Nat) : Program := ⟨0x10000, len, fun _ => 0, fun _ => none⟩

/-- What `goblin` finds in an image whose header has these fields; the records play no role. -/
def goblinOf (header : Header) : Goblin := ⟨fun _ => header, fun _ _ _ => some []⟩

/-- A table of one record right behind the ELF header, in an image that goes on. -/
theorem headers_read_inside_iff_oneRecord :
    ReadsInside Env.release (goblinOf ⟨0, 64, 56, 1⟩) (imageOf 128) twoFrames := by
  refine (headers_read_inside_iff Env.release (goblinOf ⟨0, 64, 56, 1⟩) (imageOf 128) twoFrames
    ⟨by decide, by decide, by decide⟩ (by decide)).mpr ?_
  rintro ⟨_, _, hwraps | hlong | hend⟩
  · exact absurd hwraps (by decide)
  · exact absurd hlong (by decide)
  · exact absurd hend (by decide)

/-- Three tables the checks misjudge: an end that wraps and records of length zero are read outside
the image, and a table that ends with the image is rejected. -/
theorem headers_misjudged :
    (PassesChecks Env.release (goblinOf ⟨0, 2 ^ 64 - 8, 56, 1⟩) (imageOf 128) twoFrames ∧
      ¬ (Header.mk 0 (2 ^ 64 - 8) 56 1).Inside 128) ∧
    (PassesChecks Env.release (goblinOf ⟨0, 120, 0, 1⟩) (imageOf 128) twoFrames ∧
      ¬ (Header.mk 0 120 0 1).Inside 128) ∧
    ((Header.mk 0 64 56 1).Inside 120 ∧
      ¬ PassesChecks Env.release (goblinOf ⟨0, 64, 56, 1⟩) (imageOf 120) twoFrames) := by
  refine ⟨⟨⟨_, _, rfl⟩, ?_⟩, ⟨⟨_, _, rfl⟩, ?_⟩, ?_, ?_⟩
  · exact fun h => absurd (h 0 (by decide)) (by decide)
  · exact fun h => absurd (h 0 (by decide)) (by decide)
  · exact (Header.inside_iff _ _).mpr (Or.inr (by decide))
  · rintro ⟨_, _, h⟩
    cases h

end Harmony
