import Harmony.Boot.Setup
import Harmony.Caps.Traffic

/-!
# What each operation does

One specification per operation of `Thread::exercise_cap` on a capability table, for the calls that
return. The lookups are the walks in the graph of tables as it was before the call; everything
else an operation can change is in the relation it is given here.

* `Relinked`: `Link` and `Unlink` set the child of one slot.
* `Stored`, `Builds`, `Constructed`: `Construct` puts an object into a frame that was untyped, and
  sets the resource of one slot. A failed one has changed nothing, except that the reference to the
  page table may be left over (`leftover`).
* `exerciseCap_capTable`: the call around an operation gives back what it cloned.
  `wlp_capTableCall` puts the two together, for `wlp_relinkCall` and `wlp_constructCall`.
-/

namespace Harmony

open Lib

section Results

variable (env : Env) (k k' : Kernel)

/-- The child of slot `s` of `table` has become `c`, and nothing else has changed. -/
def Relinked (table : KPtr) (s : SlotId numSlots) (c : Option KPtr) : Prop :=
  ∃ slots, k.objects table = some (.capTable slots) ∧
    Traffic (k.setObject table (.capTable (Function.update slots s ((slots s).withChild c)))) k'
      (ofOption c - ofOption (slots s).child)

/-- The address lies in the frame. -/
def RawFrame.Covers (f : RawFrame) (a : Nat) : Prop :=
  f.base.addr ≤ a ∧ a < f.base.addr + pageSize

/-- The object `o` is new in `frame`, behind `p`. -/
structure Stored (frame : RawFrame) (p : KPtr) (o : Object) : Prop where
  points : p.Points env frame
  aligned : p.inner.addr % pageSize = 0
  was_untyped : k.machine.stateOf frame.number = some .untyped
  objects : k'.objects = Function.update k.objects p (some o)
  active : k'.active = k.active
  cr3 : k'.machine.cr3 = k.machine.cr3
  state_self : k'.machine.stateOf frame.number = some .kernel
  state : ∀ n, n ≠ frame.number → k'.machine.stateOf n = k.machine.stateOf n
  mem : ∀ a, ¬ frame.Covers a → k'.machine.mem a = k.machine.mem a
  handles : k'.handles = k.handles + Pi.single p 1

/-- A capability for the new object has been put into slot `s` of `table`. -/
structure Constructed (frame : RawFrame) (p : KPtr) (o : Object) (table : KPtr)
    (s : SlotId numSlots) (resource : Resource) (d : KPtr → Int) : Prop where
  points : p.Points env frame
  aligned : p.inner.addr % pageSize = 0
  was_untyped : k.machine.stateOf frame.number = some .untyped
  rewired : ∃ slots, Function.update k.objects p (some o) table = some (.capTable slots) ∧
    k'.objects = Function.update (Function.update k.objects p (some o)) table
      (some (.capTable (Function.update slots s ((slots s).withResource resource)))) ∧
    k'.handles = k.handles + (d + Pi.single p 1 - ofOption (slots s).resource.ptr)
  active : k'.active = k.active
  cr3 : k'.machine.cr3 = k.machine.cr3
  state_self : k'.machine.stateOf frame.number = some .kernel
  state : ∀ n, n ≠ frame.number → k'.machine.stateOf n = k.machine.stateOf n
  mem : ∀ a, ¬ frame.Covers a → k'.machine.mem a = k.machine.mem a

/-- The region of a `Construct` is mapped to `frame`, and present. -/
def Maps (x : Outside) (region : Nat) (frame : RawFrame) : Prop :=
  ∃ limit address page flags, env.mul k.machine.retypeMap.length frameSize = .ok limit ∧
    region ≤ limit ∧ env.add region untypedMemoryOffset = .ok address ∧
    (VirtAddr.tryNew address).bind Page.tryFromStartAddress = some page ∧
    x.get page = some (frame, flags) ∧ flags.contains .present = true

end Results

/-- What `t` resolves a capability id to, as a table. -/
def Thread.tableOf (objects : KPtr → Option Object) (t : Thread) (cap : CapId) :
    Except CapError KPtr :=
  resourceAs Resource.asCapEntry (capabilityOf objects t.resources cap)

/-- What `t` resolves a capability id to, as a page table. -/
def Thread.pageTableOf (objects : KPtr → Option Object) (t : Thread) (cap : CapId) :
    Except CapError (KPtr × PageCapFlags) :=
  resourceAs Resource.asPageTable (capabilityOf objects t.resources cap)

/-- The object and the resource that a `Construct` of each kind makes, and the references it puts
into the object. -/
def Builds (env : Env) (k : Kernel) (t : Thread) (p : KPtr) (o : Object) (resource : Resource)
    (d : KPtr → Int) : ConstructArgs → Prop
  | .capTable => o = .capTable .default ∧ resource = .capEntry p ∧ d = 0
  | .thread entry stackPointer capTable pageTable => ∃ ct pt flags l4Frame,
      t.tableOf k.objects capTable = .ok ct ∧ t.pageTableOf k.objects pageTable = .ok (pt, flags) ∧
      ~~~flags.level ≠ 4 ∧ pt.frame env = .ok l4Frame ∧
      o = .thread ⟨.start entry stackPointer, l4Frame, ct⟩ ∧ resource = .thread p ∧
      d = Pi.single ct 1 + Pi.single pt 1
  | .pageTable level => ¬ (4 < level ∨ level = 0) ∧ ∃ table,
      (level = 4 → table = kernelHalf k.machine.mem k.machine.cr3.base.addr) ∧
      o = .pageTable level table ∧ resource = .pageTable p ⟨level⟩ ∧ d = 0

/-- The pointers that a `Construct` which fails leaves in the ledger: the page table of a thread
that could not be stored, if it got that far. -/
def leftover (objects : KPtr → Option Object) (t : Thread) : ConstructArgs → KPtr → Int
  | .thread _ _ capTable pageTable =>
    match t.tableOf objects capTable, t.pageTableOf objects pageTable with
    | .ok _, .ok (pt, flags) => if ~~~flags.level = 4 then 0 else Pi.single pt 1
    | _, _ => 0
  | _ => 0

theorem asCapEntry_ptr (r : Resource) (p : KPtr) (h : r.asCapEntry = some p) : r.ptr = some p := by
  cases r with
  | capEntry q => exact h
  | empty | thread q | pageTable q flags => cases h

theorem asPageTable_ptr (r : Resource) (p : KPtr × PageCapFlags) (h : r.asPageTable = some p) :
    r.ptr = some p.1 := by
  cases r with
  | pageTable q flags =>
    obtain rfl := Option.some.inj h
    rfl
  | empty | thread q | capEntry q => cases h

/-- A lookup fails with `NotFound` or `InvalidArgument`. -/
theorem resourceAs_error {T : Type} {tryFrom : Resource → Option T} {slot : Option CapSlot}
    {e : CapError} (h : resourceAs tryFrom slot = .error e) :
    e = .notFound ∨ e = .invalidArgument := by
  unfold resourceAs at h
  split at h
  · exact .inl (Except.error.inj h).symm
  · split at h
    · cases h
    · exact .inr (Except.error.inj h).symm

section Specs

variable {env : Env} {x : Outside} {k : Kernel} {self : KPtr} {t : Thread}

theorem wlp_deref (p : KPtr) :
    wlp (Thread.deref p) (fun t k' => k' = k ∧ k.objects p = some (.thread t)) k := by
  unfold Thread.deref
  refine wlp_get ?_
  split
  · rename_i t hp
    exact wlp_pure ⟨rfl, hp⟩
  · exact wlp_throw _

theorem wlp_cloneResources (self : KPtr) :
    wlp (Thread.cloneResources env self) (fun p k' => ∃ t, k.objects self = some (.thread t) ∧
      p = t.resources ∧ Traffic k k' (Pi.single p 1)) k := by
  refine wlp_seq (wlp_deref self) ?_
  rintro t _ ⟨rfl, ht⟩
  refine wlp_mono (wlp_cloneHandle t.resources) ?_
  rintro p k' ⟨rfl, h⟩
  exact ⟨t, ht, rfl, h⟩

/-- The caller resolves a capability id: what it finds is handed out, and nothing else. -/
theorem wlp_ownResource {T β : Type} {tryFrom : Resource → Option T} {ptr : T → KPtr}
    (hptr : ∀ r t, tryFrom r = some t → r.ptr = some (ptr t))
    (ht : k.objects self = some (.thread t)) (cap : CapId) {f : Except CapError T → CM β}
    {Q : β → Kernel → Prop}
    (hf : ∀ r k', r = resourceAs tryFrom (capabilityOf k.objects t.resources cap) →
      Traffic k k' (ofOption (r.toOption.map ptr)) → wlp (f r) Q k') :
    wlp (Thread.cloneResources env self >>= fun root =>
      CapEntry.getResourceAs env tryFrom root cap >>= f) Q k := by
  refine wlp_seq (wlp_cloneResources self) ?_
  rintro _ k₁ ⟨t', ht', rfl, h₁⟩
  obtain rfl : t = t' := by
    rw [ht] at ht'
    injection ht' with ht'
    injection ht'
  refine wlp_seq (wlp_getResourceAs hptr t.resources cap) ?_
  rintro r k₂ ⟨hr, h₂⟩
  rw [h₁.objects] at hr
  refine hf r k₂ hr ((h₁.trans h₂).of_eq ?_)
  abel

/-! ## `Link` and `Unlink` -/

theorem wlp_relink (table : KPtr) (s : SlotId numSlots) (c : Option KPtr) {k₀ : Kernel}
    (hk : Traffic k₀ k (ofOption c)) :
    wlp (AtomicCapSlot.change env table s fun cap => do
        dropOption env cap.child
        pure (cap.withChild c))
      (fun _ k' => Relinked k₀ k' table s c) k := by
  have hbody : ∀ (slot : CapSlot) (k₁ : Kernel),
      wlp (do dropOption env slot.child; pure (slot.withChild c) : CM CapSlot)
        (fun slot' k₂ => slot' = slot.withChild c ∧ Traffic k₁ k₂ (-ofOption slot.child)) k₁ :=
    fun slot k₁ => wlp_seq (wlp_dropOption slot.child) fun _ k₂ h => wlp_pure ⟨rfl, h⟩
  refine wlp_mono (wlp_change hbody) ?_
  rintro _ k' ⟨slots, hp, h⟩
  rw [hk.objects] at hp
  refine ⟨slots, hp, ((hk.setObject table _).trans h).of_eq ?_⟩
  abel

theorem wlp_link (ht : k.objects self = some (.thread t)) (table : KPtr) (s : SlotId numSlots)
    (other : CapId) :
    wlp (Thread.onCapTable env x self table (.link s other)) (fun r k' =>
      match t.tableOf k.objects other with
      | .error e => r = .error e ∧ Traffic k k' 0
      | .ok otherTable => r = .ok 0 ∧ Relinked k k' table s (some otherTable)) k := by
  refine wlp_ownResource asCapEntry_ptr ht other ?_
  intro r k₁ hr h₁
  unfold Thread.tableOf
  rw [← hr]
  cases r with
  | error e => exact wlp_pure ⟨rfl, h₁⟩
  | ok otherTable =>
    exact wlp_seq (wlp_relink table s (some otherTable) h₁) fun _ k₂ h₂ => wlp_pure ⟨rfl, h₂⟩

theorem wlp_unlink (table : KPtr) (s : SlotId numSlots) :
    wlp (Thread.onCapTable env x self table (.unlink s))
      (fun r k' => r = .ok 0 ∧ Relinked k k' table s none) k :=
  wlp_seq (wlp_relink table s none (Traffic.refl k)) fun _ _ h => wlp_pure ⟨rfl, h⟩

/-! ## `Construct` -/

/-- The pointers of an object, in the ledger; a thread's L4 table is a raw frame. -/
def ofObject : Object → KPtr → Int
  | .thread thread => Pi.single thread.resources 1
  | _ => 0

/-- Objects that are dropped where they cannot be stored. -/
def Object.Fresh : Object → Prop
  | .capTable slots => slots = .default
  | _ => True

theorem wlp_dropObject {o : Object} (ho : o.Fresh) :
    wlp (dropObject env o) (fun _ k' => Traffic k k' (-ofObject o)) k := by
  cases o with
  | thread thread => exact wlp_dropHandle thread.resources
  | pageTable level table => exact wlp_pure ((Traffic.refl k).of_eq neg_zero.symm)
  | capTable slots =>
    obtain rfl : slots = .default := ho
    have hslots : ∀ (l : List (SlotId numSlots)) (k₁ : Kernel),
        wlp (l.forM fun s => dropSlot env (RawCapEntry.default s))
          (fun _ k' => Traffic k₁ k' 0) k₁ := by
      intro l
      induction l with
      | nil => exact fun k₁ => wlp_pure (Traffic.refl k₁)
      | cons s l ih =>
        intro k₁
        refine wlp_seq (wlp_dropSlot (RawCapEntry.default s)) fun _ k₂ h₂ => ?_
        refine wlp_mono (ih k₂) fun _ k₃ h₃ => (h₂.trans h₃).of_eq ?_
        simp [RawCapEntry.default, CapSlot.default, ofSlot, ofOption, Resource.ptr]
    exact wlp_mono (hslots _ k) fun _ k' h => h.of_eq neg_zero.symm

theorem wlp_newObject (frame : RawFrame) {o : Object} (ho : o.Fresh) :
    wlp (newObject env x frame o) (fun r k' =>
      match r with
      | .error _ => Traffic k k' (-ofObject o)
      | .ok p => Stored env k k' frame p o) k := by
  refine wlp_seq (Q := fun r k₁ => match r with
    | .error _ => k₁ = k
    | .ok p => Stored env k ((k₁.setObject p o).hold p 1) frame p o) ?_ ?_
  · refine wlp_onMachine fun r m' hr => ?_
    have hnew := wp_ok (KPtr.wp_new env frame (x.bytes o) k.machine) hr
    cases r with
    | error e => rw [show m' = k.machine from hnew]
    | ok p =>
      obtain ⟨e, e', he, hg, hg', hp, haligned, rfl⟩ := hnew
      refine ⟨hp, haligned, ?_, rfl, rfl, rfl, ?_, fun n hn => ?_, fun a ha => ?_, rfl⟩
      · simp [Machine.stateOf, Machine.typing, he, hg]
      · have hself := Machine.getElem?_setEntry_self e' he
        show ((k.machine.setEntry frame.number e').typing frame.number).map Prod.fst = _
        simp [Machine.typing, hself, hg']
      · show ((k.machine.setEntry frame.number e').typing n).map Prod.fst = _
        unfold Machine.typing
        rw [Machine.getElem?_setEntry_ne hn]
        rfl
      · exact store_apply_of_not_mem ha
  · intro r k₁ h
    cases r with
    | error e =>
      obtain rfl : k₁ = k := h
      exact wlp_seq (wlp_dropObject ho) fun _ k₂ h₂ => wlp_pure h₂
    | ok p => exact wlp_seq (wlp_modify h) fun _ _ h => wlp_pure h

/-- Arithmetic of the machine below: a value, and the state as it was. -/
theorem wlp_orPanic {α : Type} (y : Except Panic α) :
    wlp (onMachine (orPanic y)) (fun a k' => k' = k ∧ y = .ok a) k := by
  refine wlp_onMachine fun a m' ha => ?_
  cases y with
  | error p => cases ha
  | ok b =>
    injection ha with h₁ h₂
    subst h₁ h₂
    exact ⟨rfl, rfl⟩

theorem wlp_memoryLimit : wlp (onMachine (RawFrame.memoryLimit env)) (fun limit k' =>
    k' = k ∧ env.mul k.machine.retypeMap.length frameSize = .ok limit) k := by
  refine wlp_onMachine fun limit m' h => ?_
  replace h : orPanic (env.mul k.machine.retypeMap.length frameSize) k.machine = .ok limit m' := h
  cases hlimit : env.mul k.machine.retypeMap.length frameSize with
  | error p =>
    rw [hlimit] at h
    cases h
  | ok n =>
    rw [hlimit] at h
    injection h with h₁ h₂
    subst h₁ h₂
    exact ⟨rfl, rfl⟩

theorem wlp_lookup (self : KPtr) (page : Page) :
    wlp (Thread.lookup env x self page) (fun r k' => k' = k ∧ r = x.get page) k := by
  refine wlp_seq (wlp_deref self) ?_
  rintro t _ ⟨rfl, _⟩
  refine wlp_seq (wlp_orPanic _) ?_
  rintro _ _ ⟨rfl, _⟩
  exact wlp_pure ⟨rfl, rfl⟩

/-- The region is mapped to one frame, or the call fails. -/
theorem wlp_region (self : KPtr) (region : Nat) :
    wlp (Thread.region env x self region) (fun r k' => k' = k ∧
      match r with
      | .error e => e = .invalidArgument ∧ ∀ frame, ¬ Maps env k x region frame
      | .ok frame => Maps env k x region frame) k := by
  unfold Thread.region
  refine wlp_seq wlp_memoryLimit ?_
  rintro limit k ⟨rfl, hlimit⟩
  by_cases hover : limit < region
  · simp only [if_pos hover]
    refine wlp_pure ⟨rfl, rfl, ?_⟩
    rintro frame ⟨limit', _, _, _, hlimit', hle, _⟩
    obtain rfl := Except.ok.inj (hlimit.symm.trans hlimit')
    omega
  simp only [if_neg hover]
  refine wlp_seq (wlp_orPanic (env.add region untypedMemoryOffset)) ?_
  rintro address k ⟨rfl, haddress⟩
  cases hpage : (VirtAddr.tryNew address).bind Page.tryFromStartAddress with
  | none =>
    refine wlp_pure ⟨rfl, rfl, ?_⟩
    rintro frame ⟨_, address', _, _, _, _, haddress', hpage', _⟩
    obtain rfl := Except.ok.inj (haddress.symm.trans haddress')
    rw [hpage] at hpage'
    cases hpage'
  | some page =>
    -- the page is the one the mapping is asked for
    have honly : ∀ frame, Maps env k x region frame → ∃ flags,
        x.get page = some (frame, flags) ∧ flags.contains .present = true := by
      rintro frame ⟨_, address', page', flags, _, _, haddress', hpage', hget, hpresent⟩
      obtain rfl := Except.ok.inj (haddress.symm.trans haddress')
      obtain rfl := Option.some.inj (hpage.symm.trans hpage')
      exact ⟨flags, hget, hpresent⟩
    refine wlp_seq (wlp_lookup self page) ?_
    rintro r k ⟨rfl, hr⟩
    cases r with
    | none =>
      refine wlp_pure ⟨rfl, rfl, fun frame hmaps => ?_⟩
      obtain ⟨flags, hget, _⟩ := honly frame hmaps
      rw [← hr] at hget
      cases hget
    | some mapping =>
      obtain ⟨frame, flags⟩ := mapping
      show wlp (if flags.contains .present = true then _ else _) _ _
      split
      · rename_i hpresent
        exact wlp_pure ⟨rfl, limit, address, page, flags, hlimit, by omega, haddress, hpage,
          hr.symm, hpresent⟩
      · rename_i habsent
        refine wlp_pure ⟨rfl, rfl, fun frame' hmaps => habsent ?_⟩
        obtain ⟨flags', hget, hpresent⟩ := honly frame' hmaps
        rw [← hr] at hget
        obtain ⟨_, rfl⟩ := Prod.mk.inj (Option.some.inj hget)
        exact hpresent

/-- A reference to the table in CR3 that comes and goes. -/
theorem wlp_cloneKernel : wlp (onMachine (AnyPageTable.cloneKernel env)) (fun table k' =>
    table = kernelHalf k.machine.mem k.machine.cr3.base.addr ∧ Traffic k k' 0) k := by
  refine wlp_onMachine fun table m' htable => ?_
  obtain ⟨rfl, _, hcloned⟩ := wp_ok (wp_cloneKernel k.machine) htable
  refine ⟨rfl, rfl, rfl, hcloned.mem, hcloned.cr3, fun n => ?_, (add_zero _).symm⟩
  show m'.stateOf n = k.machine.stateOf n
  unfold Machine.stateOf
  by_cases hn : n = k.machine.cr3.number
  · obtain ⟨c, c', hc, hc'⟩ := hcloned.typing_cr3
    rw [hn, hc, hc']
    rfl
  · rw [hcloned.typing_ne n hn]

/-- What `Construct` builds in a frame, or what a failed one leaves over. -/
def BuildResult (env : Env) (k : Kernel) (t : Thread) (frame : RawFrame) (kind : ConstructArgs)
    (k' : Kernel) : Except CapError Resource → Prop
  | .error e => (e = .notFound ∨ e = .invalidArgument) ∧ Traffic k k' (leftover k.objects t kind)
  | .ok resource => ∃ p o d k₁, Builds env k t p o resource d kind ∧ Traffic k k₁ d ∧
      Stored env k₁ k' frame p o

theorem wlp_buildCapTable (self : KPtr) (frame : RawFrame) :
    wlp (Thread.build env x self frame .capTable)
      (fun r k' => BuildResult env k t frame .capTable k' r) k := by
  refine wlp_seq (wlp_newObject frame rfl) fun r k₁ h => ?_
  cases r with
  | error e => exact wlp_pure ⟨.inr rfl, h.of_eq neg_zero⟩
  | ok p => exact wlp_pure ⟨p, _, 0, k, ⟨rfl, rfl, rfl⟩, Traffic.refl k, h⟩

theorem wlp_buildPageTable (self : KPtr) (frame : RawFrame) (level : BitVec 8) :
    wlp (Thread.build env x self frame (.pageTable level))
      (fun r k' => BuildResult env k t frame (.pageTable level) k' r) k := by
  simp only [Thread.build]
  by_cases hlevel : 4 < level ∨ level = 0
  · simp only [if_pos hlevel]
    exact wlp_pure ⟨.inr rfl, Traffic.refl k⟩
  simp only [if_neg hlevel]
  have hstore : ∀ (table : AnyPageTable) (k₁ : Kernel),
      (level = 4 → table = kernelHalf k.machine.mem k.machine.cr3.base.addr) → Traffic k k₁ 0 →
      wlp (newObject env x frame (.pageTable level table) >>= fun r => match r with
          | .error _ => pure (.error .invalidArgument)
          | .ok ptr => pure (.ok (.pageTable ptr ⟨level⟩)))
        (fun r k' => BuildResult env k t frame (.pageTable level) k' r) k₁ := by
    intro table k₁ hhalf h₁
    refine wlp_seq (wlp_newObject frame trivial) fun r k₂ h₂ => ?_
    cases r with
    | error e =>
      refine wlp_pure ⟨.inr rfl, (h₁.trans h₂).of_eq ?_⟩
      simp [ofObject, leftover]
    | ok p => exact wlp_pure ⟨p, _, 0, k₁, ⟨hlevel, table, hhalf, rfl, rfl, rfl⟩, h₁, h₂⟩
  split
  · refine wlp_seq wlp_cloneKernel ?_
    rintro table k₁ ⟨hhalf, h₁⟩
    exact hstore table k₁ (fun _ => hhalf) h₁
  · rename_i h4
    exact hstore .new k (fun h => absurd h h4) (Traffic.refl k)

theorem wlp_buildThread (ht : k.objects self = some (.thread t)) (frame : RawFrame)
    (entry stackPointer : BitVec 64) (capTable pageTable : CapId) :
    wlp (Thread.build env x self frame (.thread entry stackPointer capTable pageTable))
      (fun r k' => BuildResult env k t frame (.thread entry stackPointer capTable pageTable) k' r)
      k := by
  refine wlp_ownResource asCapEntry_ptr ht capTable ?_
  intro r₁ k₁ hr₁ h₁
  replace hr₁ : t.tableOf k.objects capTable = r₁ := hr₁.symm
  cases r₁ with
  | error e =>
    refine wlp_pure ⟨resourceAs_error hr₁, h₁.of_eq ?_⟩
    simp only [leftover, hr₁]
    rfl
  | ok ct =>
    have ht₁ : k₁.objects self = some (.thread t) := by rw [h₁.objects, ht]
    refine wlp_ownResource asPageTable_ptr ht₁ pageTable ?_
    intro r₂ k₂ hr₂ h₂
    rw [h₁.objects] at hr₂
    replace hr₂ : t.pageTableOf k.objects pageTable = r₂ := hr₂.symm
    have h₁₂ := h₁.trans h₂
    cases r₂ with
    | error e =>
      refine wlp_seq (wlp_dropHandle ct) fun _ k₃ h₃ => wlp_pure ⟨resourceAs_error hr₂, ?_⟩
      refine (h₁₂.trans h₃).of_eq ?_
      simp only [leftover, hr₁, hr₂]
      show Pi.single ct 1 + 0 + -Pi.single ct 1 = 0
      abel
    | ok found =>
      obtain ⟨pt, flags⟩ := found
      have hd : ofOption (some ct) + ofOption (some pt) = Pi.single ct 1 + Pi.single pt 1 := rfl
      show wlp (if ~~~flags.level = 4 then _ else _) _ _
      split
      · rename_i hlevel
        refine wlp_seq (wlp_dropHandle pt) fun _ k₃ h₃ => ?_
        refine wlp_seq (wlp_dropHandle ct) fun _ k₄ h₄ => wlp_pure ⟨.inr rfl, ?_⟩
        refine ((h₁₂.trans h₃).trans h₄).of_eq ?_
        simp only [leftover, hr₁, hr₂, if_pos hlevel]
        show Pi.single ct 1 + Pi.single pt 1 + -Pi.single pt 1 + -Pi.single ct 1 = 0
        abel
      · rename_i hlevel
        refine wlp_seq (wlp_orPanic _) ?_
        rintro l4Frame _ ⟨rfl, hframe⟩
        refine wlp_seq (wlp_newObject frame trivial) fun r k₃ h₃ => ?_
        cases r with
        | error e =>
          refine wlp_pure ⟨.inr rfl, (h₁₂.trans h₃).of_eq ?_⟩
          simp only [leftover, hr₁, hr₂, if_neg hlevel]
          show Pi.single ct 1 + Pi.single pt 1 + -Pi.single ct 1 = Pi.single pt 1
          abel
        | ok p =>
          exact wlp_pure ⟨p, _, _, _,
            ⟨ct, pt, flags, l4Frame, hr₁, hr₂, hlevel, hframe, rfl, rfl, rfl⟩,
            h₁₂, h₃⟩

theorem wlp_build (ht : k.objects self = some (.thread t)) (frame : RawFrame)
    (kind : ConstructArgs) :
    wlp (Thread.build env x self frame kind)
      (fun r k' => BuildResult env k t frame kind k' r) k := by
  cases kind with
  | capTable => exact wlp_buildCapTable self frame
  | pageTable level => exact wlp_buildPageTable self frame level
  | thread entry stackPointer capTable pageTable =>
    exact wlp_buildThread ht frame entry stackPointer capTable pageTable

/-- What a `Construct` on `table` did. -/
def ConstructResult (env : Env) (x : Outside) (k : Kernel) (t : Thread) (table : KPtr)
    (kind : ConstructArgs) (region : Nat) (s : SlotId numSlots) (k' : Kernel) :
    Except CapError Nat → Prop
  | .error e => (e = .notFound ∨ e = .invalidArgument) ∧
      ((∀ frame, ¬ Maps env k x region frame) ∧ Traffic k k' 0 ∨
        (∃ frame, Maps env k x region frame) ∧ Traffic k k' (leftover k.objects t kind))
  | .ok n => n = 0 ∧ ∃ frame p o resource d, Maps env k x region frame ∧
      Builds env k t p o resource d kind ∧ Constructed env k k' frame p o table s resource d

theorem wlp_construct (ht : k.objects self = some (.thread t)) (table : KPtr)
    (kind : ConstructArgs) (region : Nat) (s : SlotId numSlots) :
    wlp (Thread.onCapTable env x self table (.construct kind region s))
      (fun r k' => ConstructResult env x k t table kind region s k' r) k := by
  refine wlp_seq (wlp_region self region) ?_
  rintro r k ⟨rfl, hr⟩
  cases r with
  | error e =>
    obtain ⟨rfl, hnone⟩ := hr
    exact wlp_pure ⟨.inr rfl, .inl ⟨hnone, Traffic.refl k⟩⟩
  | ok frame =>
    refine wlp_seq (wlp_build ht frame kind) ?_
    intro r k₂ h
    cases r with
    | error e => exact wlp_pure ⟨h.1, .inr ⟨⟨frame, hr⟩, h.2⟩⟩
    | ok resource =>
      obtain ⟨p, o, d, k₁, hbuilds, h₁, h₂⟩ := h
      have hbody : ∀ (slot : CapSlot) (k₁ : Kernel),
          wlp (do dropResource env slot.resource; pure (slot.withResource resource) : CM CapSlot)
            (fun slot' k₂ => slot' = slot.withResource resource ∧
              Traffic k₁ k₂ (-ofOption slot.resource.ptr)) k₁ :=
        fun slot k₁ => wlp_seq (wlp_dropResource slot.resource) fun _ k₂ h => wlp_pure ⟨rfl, h⟩
      refine wlp_seq (wlp_change hbody) ?_
      rintro _ k₃ ⟨slots, hslots, h₃⟩
      refine wlp_pure ⟨rfl, frame, p, o, resource, d, hr, hbuilds, ?_⟩
      rw [h₂.objects, h₁.objects] at hslots
      refine ⟨h₂.points, h₂.aligned, (h₁.state _).symm.trans h₂.was_untyped,
        ⟨slots, hslots, ?_, ?_⟩,
        (h₃.active.trans h₂.active).trans h₁.active, (h₃.cr3.trans h₂.cr3).trans h₁.cr3,
        (h₃.state _).trans h₂.state_self, fun n hn => ?_, fun a ha => ?_⟩
      · rw [h₃.objects, Kernel.setObject, h₂.objects, h₁.objects]
      · rw [h₃.handles, Kernel.setObject, h₂.handles, h₁.handles]
        abel
      · exact ((h₃.state n).trans (h₂.state n hn)).trans (h₁.state n)
      · rw [h₃.mem]
        exact (h₂.mem a ha).trans (congrFun h₁.mem a)

/-! ## The call around an operation -/

/-- A call with an operation on capability tables that returned: the capability was refused and
nothing has changed, or the operation ran on the table it stands for, between the clone of the
caller's slot and its drop. -/
theorem exerciseCap_capTable (self : KPtr) (cap : CapId) (op : CapTableOp numSlots) :
    wlp (Thread.exerciseCap env x self cap (.capTable op)) (fun r k' =>
      ∃ t, k.objects self = some (.thread t) ∧
        ((∃ e, (e = .notFound ∨ e = .invalidArgument) ∧
          (∀ table, t.tableOf k.objects cap ≠ .ok table) ∧
            r = .error e ∧ Traffic k k' 0) ∨
          ∃ table d k₁ k₂, t.tableOf k.objects cap = .ok table ∧ Traffic k k₁ d ∧
            Thread.onCapTable env x self table op k₁ = .ok r k₂ ∧ Traffic k₂ k' (-d))) k := by
  refine wlp_seq (wlp_cloneResources self) ?_
  rintro _ k₁ ⟨t, ht, rfl, h₁⟩
  refine wlp_seq (wlp_getCapability t.resources cap) ?_
  intro r k₂ h₂
  rw [h₁.objects] at h₂
  have htable : t.tableOf k.objects cap =
      resourceAs Resource.asCapEntry (capabilityOf k.objects t.resources cap) := rfl
  cases hcap : capabilityOf k.objects t.resources cap with
  | none =>
    rw [hcap] at h₂ htable
    obtain ⟨rfl, h₂⟩ := h₂
    refine wlp_pure ⟨t, ht, .inl ⟨.notFound, .inl rfl, ?_, rfl, (h₁.trans h₂).of_eq ?_⟩⟩
    · simp [htable, resourceAs]
    · abel
  | some slot =>
    rw [hcap] at h₂ htable
    obtain ⟨rfl, h₂⟩ := h₂
    have h₁₂ : Traffic k k₂ (ofSlot slot) := (h₁.trans h₂).of_eq (by abel)
    obtain ⟨child, resource⟩ := slot
    cases resource with
    | empty =>
      refine wlp_seq (wlp_dropOption child) fun _ k₃ h₃ => ?_
      have hempty : Traffic k₂ k₂ (-ofOption (Resource.empty).ptr) :=
        (Traffic.refl k₂).of_eq neg_zero.symm
      refine wlp_pure ⟨t, ht, .inl ⟨.notFound, .inl rfl, ?_, rfl, h₁₂.give_back hempty h₃⟩⟩
      simp [htable, resourceAs, Resource.asCapEntry]
    | capEntry table =>
      refine wlp_seq (wlp_returned _) fun r k₃ hrun => ?_
      refine wlp_seq (wlp_dropHandle table) fun _ k₄ h₄ => ?_
      refine wlp_seq (wlp_dropOption child) fun _ k₅ h₅ => wlp_pure ⟨t, ht, .inr ?_⟩
      refine ⟨table, _, k₂, k₃, htable, h₁₂, hrun, (h₄.trans h₅).of_eq ?_⟩
      show -Pi.single table 1 + -ofOption child = -(ofOption child + Pi.single table 1)
      abel
    | thread ptr =>
      refine wlp_seq (wlp_dropHandle ptr) fun _ k₃ h₃ => ?_
      refine wlp_seq (wlp_dropOption child) fun _ k₄ h₄ => ?_
      refine wlp_pure ⟨t, ht, .inl ⟨.invalidArgument, .inr rfl, ?_, rfl, h₁₂.give_back h₃ h₄⟩⟩
      simp [htable, resourceAs, Resource.asCapEntry]
    | pageTable ptr flags => exact wlp_throw _

/-! ## Whole calls -/

/-- What a table's child becomes: nothing, or the table the caller resolves an id to. -/
def Thread.childOf (objects : KPtr → Option Object) (t : Thread) :
    Option CapId → Except CapError (Option KPtr)
  | none => .ok none
  | some other => (t.tableOf objects other).map some

/-- `Unlink`, or `Link` with a table. -/
def CapTableOp.relink (s : SlotId numSlots) : Option CapId → CapTableOp numSlots
  | none => .unlink s
  | some other => .link s other

theorem CapTableOp.relink_ne_construct {s s' : SlotId numSlots} {other : Option CapId}
    {kind : ConstructArgs} {region : Nat} :
    CapTableOp.relink s other ≠ .construct kind region s' := by
  cases other with
  | none => exact nofun
  | some other => exact nofun

/-- What a `Link` or an `Unlink` on `table` did. -/
def RelinkResult (k : Kernel) (t : Thread) (table : KPtr) (s : SlotId numSlots)
    (other : Option CapId) (k' : Kernel) : Except CapError Nat → Prop
  | .error e => t.childOf k.objects other = .error e ∧ Traffic k k' 0
  | .ok n => n = 0 ∧ ∃ c, t.childOf k.objects other = .ok c ∧ Relinked k k' table s c

/-- What a call on a capability table did, where the operation did `Did` on the table. -/
def CallResult (k : Kernel) (self : KPtr) (cap : CapId) (k' : Kernel) (r : Except CapError Nat)
    (Did : Thread → KPtr → Prop) : Prop :=
  ∃ t, k.objects self = some (.thread t) ∧
    ((∃ e, (e = .notFound ∨ e = .invalidArgument) ∧ (∀ table, t.tableOf k.objects cap ≠ .ok table) ∧
        r = .error e ∧ Traffic k k' 0) ∨
      ∃ table, t.tableOf k.objects cap = .ok table ∧ Did t table)

theorem Relinked.of_traffic {k₁ k₂ k' : Kernel} {d : KPtr → Int} {table : KPtr}
    {s : SlotId numSlots} {c : Option KPtr} (h₁ : Traffic k k₁ d) (h : Relinked k₁ k₂ table s c)
    (h₂ : Traffic k₂ k' (-d)) : Relinked k k' table s c := by
  obtain ⟨slots, hslots, ht⟩ := h
  rw [h₁.objects] at hslots
  refine ⟨slots, hslots, (((h₁.setObject table _).trans ht).trans h₂).of_eq ?_⟩
  abel

theorem Traffic.length_eq {k' : Kernel} {d : KPtr → Int} (h : Traffic k k' d) :
    k'.machine.retypeMap.length = k.machine.retypeMap.length := by
  have hnone : ∀ (m : Machine) (n : Nat), m.stateOf n = none ↔ m.retypeMap.length ≤ n := by
    intro m n
    simp [Machine.stateOf, Machine.typing]
  refine Nat.le_antisymm ?_ ?_
  · exact (hnone _ _).mp ((h.state _).trans ((hnone _ _).mpr (Nat.le_refl _)))
  · exact (hnone _ _).mp ((h.state _).symm.trans ((hnone _ _).mpr (Nat.le_refl _)))

theorem Traffic.maps_iff {k' : Kernel} {d : KPtr → Int} (h : Traffic k k' d) (x : Outside)
    (region : Nat) (frame : RawFrame) : Maps env k' x region frame ↔ Maps env k x region frame := by
  unfold Maps
  rw [h.length_eq]

theorem Traffic.builds {k' : Kernel} {d d' : KPtr → Int} {p : KPtr} {o : Object}
    {resource : Resource} {kind : ConstructArgs} (h : Traffic k k' d)
    (hb : Builds env k' t p o resource d' kind) : Builds env k t p o resource d' kind := by
  cases kind with
  | capTable => exact hb
  | thread entry stackPointer capTable pageTable =>
    unfold Builds at hb ⊢
    rwa [h.objects] at hb
  | pageTable level =>
    unfold Builds at hb ⊢
    rwa [h.mem, h.cr3] at hb

theorem Constructed.of_traffic {k₁ k₂ k' : Kernel} {d d' : KPtr → Int} {frame : RawFrame}
    {p : KPtr} {o : Object} {table : KPtr} {s : SlotId numSlots} {resource : Resource}
    (h₁ : Traffic k k₁ d) (h : Constructed env k₁ k₂ frame p o table s resource d')
    (h₂ : Traffic k₂ k' (-d)) : Constructed env k k' frame p o table s resource d' where
  points := h.points
  aligned := h.aligned
  was_untyped := (h₁.state _).symm.trans h.was_untyped
  rewired := by
    obtain ⟨slots, hslots, hobjects, hhandles⟩ := h.rewired
    rw [h₁.objects] at hslots hobjects
    refine ⟨slots, hslots, h₂.objects.trans hobjects, ?_⟩
    rw [h₂.handles, hhandles, h₁.handles]
    abel
  active := (h₂.active.trans h.active).trans h₁.active
  cr3 := (h₂.cr3.trans h.cr3).trans h₁.cr3
  state_self := (h₂.state _).trans h.state_self
  state n hn := ((h₂.state n).trans (h.state n hn)).trans (h₁.state n)
  mem a ha := by rw [h₂.mem, h.mem a ha, h₁.mem]

theorem ConstructResult.of_traffic {k₁ k₂ k' : Kernel} {d : KPtr → Int} {table : KPtr}
    {kind : ConstructArgs} {region : Nat} {s : SlotId numSlots} {r : Except CapError Nat}
    (h₁ : Traffic k k₁ d) (h : ConstructResult env x k₁ t table kind region s k₂ r)
    (h₂ : Traffic k₂ k' (-d)) : ConstructResult env x k t table kind region s k' r := by
  have hback : ∀ d', Traffic k₁ k₂ d' → Traffic k k' d' := by
    intro d' h
    refine ((h₁.trans h).trans h₂).of_eq ?_
    abel
  cases r with
  | error e =>
    obtain ⟨he, hres⟩ := h
    refine ⟨he, ?_⟩
    simp only [h₁.maps_iff, h₁.objects] at hres
    exact hres.imp (And.imp_right (hback _)) (And.imp_right (hback _))
  | ok n =>
    obtain ⟨hn, frame, p, o, resource, d', hmaps, hbuilds, hdone⟩ := h
    exact ⟨hn, frame, p, o, resource, d', (h₁.maps_iff x region frame).mp hmaps,
      h₁.builds hbuilds, hdone.of_traffic h₁ h₂⟩

/-- A `Link` or an `Unlink`, on a table. -/
theorem wlp_relinkOp (ht : k.objects self = some (.thread t)) (table : KPtr)
    (s : SlotId numSlots) (other : Option CapId) :
    wlp (Thread.onCapTable env x self table (.relink s other))
      (fun r k' => RelinkResult k t table s other k' r) k := by
  cases other with
  | none =>
    refine wlp_mono (wlp_unlink table s) ?_
    rintro _ k' ⟨rfl, h⟩
    exact ⟨rfl, none, rfl, h⟩
  | some other =>
    refine wlp_mono (wlp_link ht table s other) fun r k' h => ?_
    cases hother : t.tableOf k.objects other with
    | error e =>
      rw [hother] at h
      obtain ⟨rfl, h⟩ := h
      exact ⟨by rw [Thread.childOf, hother]; rfl, h⟩
    | ok otherTable =>
      rw [hother] at h
      obtain ⟨rfl, h⟩ := h
      exact ⟨rfl, some otherTable, by rw [Thread.childOf, hother]; rfl, h⟩

theorem RelinkResult.of_traffic {k₁ k₂ k' : Kernel} {d : KPtr → Int} {table : KPtr}
    {s : SlotId numSlots} {other : Option CapId} {r : Except CapError Nat}
    (h₁ : Traffic k k₁ d) (h : RelinkResult k₁ t table s other k₂ r) (h₂ : Traffic k₂ k' (-d)) :
    RelinkResult k t table s other k' r := by
  have hchild : t.childOf k₁.objects other = t.childOf k.objects other := by rw [h₁.objects]
  unfold RelinkResult at h ⊢
  rw [hchild] at h
  cases r with
  | error e =>
    refine ⟨h.1, ((h₁.trans h.2).trans h₂).of_eq ?_⟩
    abel
  | ok n =>
    obtain ⟨hn, c, hc, hdone⟩ := h
    exact ⟨hn, c, hc, hdone.of_traffic h₁ h₂⟩

/-- **From the operation to the call**: what an operation does to its table is what the call does,
once that does not depend on the references the call clones and drops around it. -/
theorem wlp_capTableCall {op : CapTableOp numSlots} (self : KPtr) (cap : CapId)
    (Did : Kernel → Thread → KPtr → Kernel → Except CapError Nat → Prop)
    (hop : ∀ k₁ t table, k₁.objects self = some (.thread t) →
      wlp (Thread.onCapTable env x self table op) (fun r k₂ => Did k₁ t table k₂ r) k₁)
    (htraffic : ∀ k₁ k₂ k' d t table r, Traffic k k₁ d → Did k₁ t table k₂ r →
      Traffic k₂ k' (-d) → Did k t table k' r) :
    wlp (Thread.exerciseCap env x self cap (.capTable op))
      (fun r k' => CallResult k self cap k' r fun t table => Did k t table k' r) k := by
  refine wlp_mono (exerciseCap_capTable self cap op) ?_
  rintro r k' ⟨t, ht, hrefused | ⟨table, d, k₁, k₂, htable, h₁, hrun, h₂⟩⟩
  · exact ⟨t, ht, .inl hrefused⟩
  have ht₁ : k₁.objects self = some (.thread t) := by rw [h₁.objects, ht]
  have hdid := wlp_ok (hop k₁ t table ht₁) hrun
  exact ⟨t, ht, .inr ⟨table, htable, htraffic k₁ k₂ k' d t table r h₁ hdid h₂⟩⟩

/-- A `Link` or an `Unlink`, as a whole call. -/
theorem wlp_relinkCall (self : KPtr) (cap : CapId) (s : SlotId numSlots) (other : Option CapId) :
    wlp (Thread.exerciseCap env x self cap (.capTable (.relink s other)))
      (fun r k' => CallResult k self cap k' r fun t table => RelinkResult k t table s other k' r)
      k := by
  refine wlp_capTableCall self cap
    (fun k t table k' r => RelinkResult k t table s other k' r) ?_ ?_
  · intro k₁ t table ht
    exact wlp_relinkOp ht table s other
  · intro k₁ k₂ k' d t table r h₁ h h₂
    exact h.of_traffic h₁ h₂

/-- A `Construct`, as a whole call. -/
theorem wlp_constructCall (self : KPtr) (cap : CapId) (kind : ConstructArgs) (region : Nat)
    (s : SlotId numSlots) :
    wlp (Thread.exerciseCap env x self cap (.capTable (.construct kind region s)))
      (fun r k' => CallResult k self cap k' r fun t table =>
        ConstructResult env x k t table kind region s k' r) k := by
  refine wlp_capTableCall self cap
    (fun k t table k' r => ConstructResult env x k t table kind region s k' r) ?_ ?_
  · intro k₁ t table ht
    exact wlp_construct ht table kind region s
  · intro k₁ k₂ k' d t table r h₁ h h₂
    exact h.of_traffic h₁ h₂

/-- A call of `exercise_cap` by a thread, on a capability table. -/
structure Call where
  outside : Outside
  thread : KPtr
  cap : CapId
  op : CapTableOp numSlots

/-- The call returns `r`. -/
def Call.Returns (env : Env) (k : Kernel) (c : Call) (r : Except CapError Nat) (k' : Kernel) :
    Prop :=
  Thread.exerciseCap env c.outside c.thread c.cap (.capTable c.op) k = .ok r k'

/-- What a call that returned has done. The operations `Drop` and `Copy` do not return. -/
inductive Call.Effect (env : Env) (k : Kernel) (c : Call) (t : Thread) (k' : Kernel) :
    Except CapError Nat → Prop
  | failed {e : CapError} {d : KPtr → Int} (he : e = .notFound ∨ e = .invalidArgument)
      (h : Traffic k k' d) : Effect env k c t k' (.error e)
  | relinked {s : SlotId numSlots} {other : Option CapId} {table : KPtr} {child : Option KPtr}
      (hop : c.op = .relink s other) (htable : t.tableOf k.objects c.cap = .ok table)
      (hchild : t.childOf k.objects other = .ok child) (h : Relinked k k' table s child) :
      Effect env k c t k' (.ok 0)
  | constructed {kind : ConstructArgs} {region : Nat} {s : SlotId numSlots} {table : KPtr}
      {frame : RawFrame} {p : KPtr} {o : Object} {resource : Resource} {d : KPtr → Int}
      (hop : c.op = .construct kind region s) (htable : t.tableOf k.objects c.cap = .ok table)
      (hmaps : Maps env k c.outside region frame) (hbuilds : Builds env k t p o resource d kind)
      (h : Constructed env k k' frame p o table s resource d) : Effect env k c t k' (.ok 0)

theorem Thread.childOf_error {other : Option CapId} {e : CapError}
    (h : t.childOf k.objects other = .error e) : e = .notFound ∨ e = .invalidArgument := by
  cases other with
  | none => cases h
  | some other =>
    replace h : (t.tableOf k.objects other).map some = .error e := h
    cases htable : t.tableOf k.objects other with
    | ok table =>
      rw [htable] at h
      cases h
    | error e' =>
      rw [htable] at h
      obtain rfl : e' = e := Except.error.inj h
      exact resourceAs_error htable

theorem Call.effect {c : Call} {r : Except CapError Nat} {k' : Kernel}
    (hrun : c.Returns env k r k') :
    ∃ t, k.objects c.thread = some (.thread t) ∧ c.Effect env k t k' r := by
  obtain ⟨x, self, cap, op⟩ := c
  have hrelink : ∀ s other, op = .relink s other → ∃ t, k.objects self = some (.thread t) ∧
      Call.Effect env k ⟨x, self, cap, op⟩ t k' r := by
    rintro s other rfl
    obtain ⟨t, ht, ⟨e, he, _, rfl, hsame⟩ | ⟨table, htable, hres⟩⟩ :=
      wlp_ok (wlp_relinkCall self cap s other) hrun
    · exact ⟨t, ht, .failed he hsame⟩
    refine ⟨t, ht, ?_⟩
    cases r with
    | error e => exact .failed (Thread.childOf_error hres.1) hres.2
    | ok n =>
      obtain ⟨rfl, child, hchild, hdone⟩ := hres
      exact .relinked rfl htable hchild hdone
  -- a `todo!()` does not return
  have htodo : (∀ table k₁ k₂, Thread.onCapTable env x self table op k₁ ≠ .ok r k₂) →
      ∃ t, k.objects self = some (.thread t) ∧ Call.Effect env k ⟨x, self, cap, op⟩ t k' r := by
    intro hnever
    obtain ⟨t, ht, ⟨e, he, _, rfl, hsame⟩ | ⟨table, _, k₁, k₂, _, _, hop, _⟩⟩ :=
      wlp_ok (exerciseCap_capTable self cap op) hrun
    · exact ⟨t, ht, .failed he hsame⟩
    · exact absurd hop (hnever table k₁ k₂)
  cases op with
  | link s other => exact hrelink s (some other) rfl
  | unlink s => exact hrelink s none rfl
  | construct kind region s =>
    obtain ⟨t, ht, ⟨e, he, _, rfl, hsame⟩ | ⟨table, htable, hres⟩⟩ :=
      wlp_ok (wlp_constructCall self cap kind region s) hrun
    · exact ⟨t, ht, .failed he hsame⟩
    refine ⟨t, ht, ?_⟩
    cases r with
    | error e =>
      obtain ⟨he, ⟨_, hsame⟩ | ⟨_, hsame⟩⟩ := hres
      · exact .failed he hsame
      · exact .failed he hsame
    | ok n =>
      obtain ⟨rfl, frame, p, o, resource, d, hmaps, hbuilds, hdone⟩ := hres
      exact .constructed rfl htable hmaps hbuilds hdone
  | drop s => exact htodo fun _ _ _ h => by cases h
  | copy s other otherSlot => exact htodo fun _ _ _ h => by cases h

end Specs

end Harmony
