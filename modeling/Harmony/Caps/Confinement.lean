import Harmony.Caps.Relink
import Harmony.Lib.Reach

/-!
# Capability confinement

The kernel objects form a graph: a capability table points to the child and the resource of each of
its slots, a thread to its capability table and to its L4 table. What a thread reaches in this graph
is what it can ever name. An operation on a capability table adds edges to objects its caller
reached and to the object it constructed, and to nothing else; so no run of such operations lets a
thread reach an object that neither it nor any caller in the run reached at the start, unless the
object was made on the way.

* `Thread.tableOf_reaches`, `Thread.pageTableOf_reaches`: what a thread can name, it reaches.
* `Call.edges`: the edges after a call.
* `capability_confinement`: one call, and every run.
-/

namespace Harmony

open Lib Lib.Reach
open Relation (TransGen ReflTransGen)

/-- The object points to `q`. -/
def Object.PointsTo (env : Env) : Object → KPtr → Prop
  | .capTable slots, q => ∃ s, (slots s).child = some q ∨ (slots s).resource.ptr = some q
  | .thread t, q => q = t.resources ∨ q.frame env = .ok t.l4Frame
  | .pageTable _ _, _ => False

/-- The graph of kernel objects. -/
def PointsTo (env : Env) (objects : KPtr → Option Object) (p q : KPtr) : Prop :=
  ∃ o, objects p = some o ∧ o.PointsTo env q

/-- A path of one edge or more. -/
def Reaches (env : Env) (objects : KPtr → Option Object) : KPtr → KPtr → Prop :=
  TransGen (PointsTo env objects)

/-! ## Pointers and frames -/

section Pointers

variable {env : Env} {p q : KPtr} {f : RawFrame}

theorem KPtr.ext_addr (h : p.inner.addr = q.inner.addr) : p = q := by
  obtain ⟨⟨a, _⟩⟩ := p
  obtain ⟨⟨b, _⟩⟩ := q
  obtain rfl : a = b := h
  rfl

theorem KPtr.Points.unique (hp : p.Points env f) (hq : q.Points env f) : p = q :=
  KPtr.ext_addr (hp.trans hq.symm)

/-- One pointer leads to a frame. -/
theorem KPtr.frame_inj (hp : p.frame env = .ok f) (hq : q.frame env = .ok f) : p = q := by
  -- the difference to the offset of the direct map, in range or wrapped
  have hbase : ∀ r : KPtr, r.frame env = .ok f →
      env.sub r.inner.addr env.pmo = .ok f.base.addr := by
    intro r hr
    unfold KPtr.frame PhysAddr.fromVirtual at hr
    cases hsub : env.sub r.inner.addr env.pmo with
    | error e =>
      rw [hsub] at hr
      cases hr
    | ok paddr =>
      rw [hsub] at hr
      simp only at hr
      cases hnew : PhysAddr.new paddr with
      | error e =>
        rw [hnew] at hr
        cases hr
      | ok a =>
        rw [hnew] at hr
        rw [(RawFrame.fromStartAddress_eq_ok hr).1, PhysAddr.new_eq_ok hnew]
  have hlt := p.inner.lt
  have hlt' := q.inner.lt
  have hpmo := env.pmo_lt
  apply KPtr.ext_addr
  rcases Env.sub_eq_ok (hbase p hp) with ⟨_, h₁⟩ | ⟨_, _, h₁⟩ <;>
    rcases Env.sub_eq_ok (hbase q hq) with ⟨_, h₂⟩ | ⟨_, _, h₂⟩ <;> omega

end Pointers

/-! ## What a thread can name -/

section Naming

variable {env : Env} {objects : KPtr → Option Object} {self : KPtr} {t : Thread} {cap : CapId}

theorem pointsTo_of_slotOf {p q : KPtr} {s : SlotId numSlots} {slot : CapSlot}
    (hslot : slotOf objects p s = some slot)
    (hq : slot.child = some q ∨ slot.resource.ptr = some q) : PointsTo env objects p q := by
  obtain ⟨slots, hp, rfl⟩ := slotOf_eq_some.mp hslot
  exact ⟨_, hp, s, hq⟩

/-- A thread reaches what is in the slots it can name. -/
theorem reaches_of_capabilityOf (ht : objects self = some (.thread t)) {slot : CapSlot}
    (hcap : capabilityOf objects t.resources cap = some slot) {q : KPtr}
    (hq : slot.resource.ptr = some q) : Reaches env objects self q := by
  unfold capabilityOf at hcap
  rw [Option.bind_eq_some_iff] at hcap
  obtain ⟨⟨table, s⟩, hget, hslot⟩ := hcap
  obtain ⟨ks, _, hwalk⟩ := (TrieEntry.get_eq_some_iff (by decide)).mp hget
  have hlink : ∀ a j b, linksOf objects a j = some b → PointsTo env objects a b := by
    intro a j b h
    rw [linksOf, Option.bind_eq_some_iff] at h
    obtain ⟨slot', hslot', hchild⟩ := h
    exact pointsTo_of_slotOf hslot' (.inl hchild)
  have hroot : PointsTo env objects self t.resources := ⟨_, ht, .inl rfl⟩
  have hpath : ReflTransGen (PointsTo env objects) t.resources table :=
    reflTransGen_of_follow hlink hwalk
  exact (TransGen.head' hroot hpath).tail (pointsTo_of_slotOf hslot (.inr hq))

theorem resourceAs_ok {T : Type} {tryFrom : Resource → Option T} {found : Option CapSlot} {v : T}
    (h : resourceAs tryFrom found = .ok v) :
    ∃ slot, found = some slot ∧ tryFrom slot.resource = some v := by
  unfold resourceAs at h
  split at h
  · cases h
  · rename_i slot
    split at h
    · rename_i v' hv
      obtain rfl := Except.ok.inj h
      exact ⟨slot, rfl, hv⟩
    · cases h

theorem Thread.tableOf_reaches (ht : objects self = some (.thread t)) {table : KPtr}
    (h : t.tableOf objects cap = .ok table) : Reaches env objects self table := by
  obtain ⟨slot, hcap, hslot⟩ := resourceAs_ok h
  exact reaches_of_capabilityOf ht hcap (asCapEntry_ptr _ _ hslot)

theorem Thread.pageTableOf_reaches (ht : objects self = some (.thread t)) {q : KPtr}
    {flags : PageCapFlags} (h : t.pageTableOf objects cap = .ok (q, flags)) :
    Reaches env objects self q := by
  obtain ⟨slot, hcap, hslot⟩ := resourceAs_ok h
  exact reaches_of_capabilityOf ht hcap (asPageTable_ptr _ _ hslot)

theorem Thread.childOf_reaches (ht : objects self = some (.thread t)) {other : Option CapId}
    {q : KPtr} (h : t.childOf objects other = .ok (some q)) : Reaches env objects self q := by
  cases other with
  | none => cases h
  | some other =>
    replace h : (t.tableOf objects other).map some = .ok (some q) := h
    cases htable : t.tableOf objects other with
    | error e =>
      rw [htable] at h
      cases h
    | ok table =>
      rw [htable] at h
      obtain rfl : table = q := Option.some.inj (Except.ok.inj h)
      exact Thread.tableOf_reaches ht htable

end Naming

/-! ## The edges after a call -/

section Edges

variable {env : Env} {k k' : Kernel} {objects : KPtr → Option Object} {t : Thread}

/-- The objects where one is replaced. -/
theorem update_eq_some {p q : KPtr} {o o' : Object}
    (h : Function.update objects p (some o) q = some o') :
    (q = p ∧ o' = o) ∨ (q ≠ p ∧ objects q = some o') := by
  by_cases hq : q = p
  · subst hq
    rw [Function.update_self] at h
    exact .inl ⟨rfl, (Option.some.inj h).symm⟩
  · rw [Function.update_of_ne hq] at h
    exact .inr ⟨hq, h⟩

/-- The edges where one object is replaced. -/
theorem PointsTo.of_update {p : KPtr} {o : Object} {m n : KPtr}
    (h : PointsTo env (Function.update objects p (some o)) m n) :
    (m = p ∧ o.PointsTo env n) ∨ (m ≠ p ∧ PointsTo env objects m n) := by
  obtain ⟨o', hm, hn⟩ := h
  rcases update_eq_some hm with ⟨rfl, rfl⟩ | ⟨hne, hm⟩
  · exact .inl ⟨rfl, hn⟩
  · exact .inr ⟨hne, o', hm, hn⟩

/-- The edges of a table where one slot is replaced. -/
theorem Object.pointsTo_setSlot {slots : RawCapEntry} {s : SlotId numSlots} {slot : CapSlot}
    {n : KPtr} (h : (Object.capTable (Function.update slots s slot)).PointsTo env n) :
    (Object.capTable slots).PointsTo env n ∨ slot.child = some n ∨ slot.resource.ptr = some n := by
  obtain ⟨j, hj⟩ := h
  by_cases hjs : j = s
  · subst hjs
    rw [Function.update_self] at hj
    exact .inr hj
  · rw [Function.update_of_ne hjs] at hj
    exact .inl ⟨j, hj⟩

/-- The only new edge leads to the new child. -/
theorem Relinked.edges {table : KPtr} {s : SlotId numSlots} {c : Option KPtr}
    (h : Relinked k k' table s c) {m n : KPtr} (hmn : PointsTo env k'.objects m n) :
    PointsTo env k.objects m n ∨ c = some n := by
  obtain ⟨slots, htable, ht⟩ := h
  rw [ht.objects] at hmn
  rcases hmn.of_update with ⟨rfl, hn⟩ | ⟨_, hold⟩
  · rcases Object.pointsTo_setSlot hn with hold | hchild | hresource
    · exact .inl ⟨_, htable, hold⟩
    · exact .inr hchild
    · exact .inl ⟨_, htable, s, .inr hresource⟩
  · exact .inl hold

/-- A new object points to what its maker could name. -/
theorem Builds.reaches {self p q : KPtr} {o : Object} {resource : Resource} {d : KPtr → Int}
    {kind : ConstructArgs} (ht : k.objects self = some (.thread t))
    (hb : Builds env k t p o resource d kind) (hq : o.PointsTo env q) :
    Reaches env k.objects self q := by
  cases kind with
  | capTable =>
    obtain ⟨rfl, _⟩ := hb
    obtain ⟨s, h | h⟩ := hq
    · cases h
    · cases h
  | pageTable level =>
    obtain ⟨_, table, _, rfl, _⟩ := hb
    exact hq.elim
  | thread entry stackPointer capTable pageTable =>
    obtain ⟨ct, pt, flags, l4Frame, hct, hpt, _, hframe, rfl, _⟩ := hb
    rcases hq with rfl | hq
    · exact Thread.tableOf_reaches ht hct
    · rw [KPtr.frame_inj hq hframe]
      exact Thread.pageTableOf_reaches ht hpt

theorem Builds.resource_ptr {p : KPtr} {o : Object} {resource : Resource} {d : KPtr → Int}
    {kind : ConstructArgs} (hb : Builds env k t p o resource d kind) : resource.ptr = some p := by
  cases kind with
  | capTable =>
    obtain ⟨_, rfl, _⟩ := hb
    rfl
  | pageTable level =>
    obtain ⟨_, _, _, _, rfl, _⟩ := hb
    rfl
  | thread entry stackPointer capTable pageTable =>
    obtain ⟨_, _, _, _, _, _, _, _, _, rfl, _⟩ := hb
    rfl

/-- The new edges lead to the new object, or from it. -/
theorem Constructed.edges {frame : RawFrame} {p : KPtr} {o : Object} {table : KPtr}
    {s : SlotId numSlots} {resource : Resource} {d : KPtr → Int}
    (h : Constructed env k k' frame p o table s resource d) (hptr : resource.ptr = some p)
    {m n : KPtr} (hmn : PointsTo env k'.objects m n) :
    (m ≠ p ∧ PointsTo env k.objects m n) ∨ o.PointsTo env n ∨ n = p := by
  obtain ⟨slots, htable, hobjects, _⟩ := h.rewired
  have hstored : PointsTo env (Function.update k.objects p (some o)) m n →
      (m ≠ p ∧ PointsTo env k.objects m n) ∨ o.PointsTo env n ∨ n = p := by
    intro hold
    rcases hold.of_update with ⟨_, hn⟩ | hold
    · exact .inr (.inl hn)
    · exact .inl hold
  rw [hobjects] at hmn
  rcases hmn.of_update with ⟨rfl, hn⟩ | ⟨_, hold⟩
  · rcases Object.pointsTo_setSlot hn with hold | hchild | hresource
    · exact hstored ⟨_, htable, hold⟩
    · exact hstored ⟨_, htable, s, .inl hchild⟩
    · right
      right
      exact Option.some.inj (hresource.symm.trans hptr)
  · exact hstored hold

end Edges

/-! ## Confinement -/

section Calls

variable {env : Env} {k k' : Kernel} {c : Call} {r : Except CapError Nat}

/-- One call, as a step. -/
def Call.Step (env : Env) (k : Kernel) (c : Call) (k' : Kernel) : Prop := ∃ r, c.Returns env k r k'

/-- The call constructed the object at `p`, in the frame its region is mapped to. -/
def Call.Makes (env : Env) (k : Kernel) (c : Call) (k' : Kernel) (p : KPtr) : Prop :=
  ∃ kind region s n frame, c.op = .construct kind region s ∧ c.Returns env k (.ok n) k' ∧
    Maps env k c.outside region frame ∧ p.Points env frame

theorem Maps.unique {x : Outside} {region : Nat} {f g : RawFrame} (hf : Maps env k x region f)
    (hg : Maps env k x region g) : f = g := by
  obtain ⟨_, address, page, flags, _, _, haddress, hpage, hget, _⟩ := hf
  obtain ⟨_, address', page', flags', _, _, haddress', hpage', hget', _⟩ := hg
  obtain rfl := Except.ok.inj (haddress.symm.trans haddress')
  obtain rfl := Option.some.inj (hpage.symm.trans hpage')
  exact (Prod.mk.inj (Option.some.inj (hget.symm.trans hget'))).1

/-- A call constructs one object at most. -/
theorem Call.Makes.unique {p q : KPtr} (hp : c.Makes env k k' p) (hq : c.Makes env k k' q) :
    p = q := by
  obtain ⟨kind, region, s, _, frame, hop, _, hmaps, hpoints⟩ := hp
  obtain ⟨kind', region', s', _, frame', hop', _, hmaps', hpoints'⟩ := hq
  obtain ⟨_, rfl, _⟩ := CapTableOp.construct.inj (hop.symm.trans hop')
  obtain rfl := hmaps.unique hmaps'
  exact hpoints.unique hpoints'

/-- The edges after a call: those that were there, and edges to what the caller reached and to the
object it made. -/
theorem Call.edges (hrun : c.Returns env k r k') {m n : KPtr} (hmn : PointsTo env k'.objects m n) :
    (¬ c.Makes env k k' m ∧ PointsTo env k.objects m n) ∨ Reaches env k.objects c.thread n ∨
      c.Makes env k k' n := by
  obtain ⟨t, ht, heffect⟩ := Call.effect hrun
  cases heffect with
  | failed he h =>
    rw [h.objects] at hmn
    refine .inl ⟨?_, hmn⟩
    rintro ⟨_, _, _, _, _, _, hok, _⟩
    cases hrun.symm.trans hok
  | @relinked s other table child hop htable hchild h =>
    rcases h.edges hmn with hold | rfl
    · refine .inl ⟨?_, hold⟩
      rintro ⟨kind, region, s', _, _, hop', _⟩
      exact CapTableOp.relink_ne_construct (hop.symm.trans hop')
    · exact .inr (.inl (Thread.childOf_reaches ht hchild))
  | @constructed kind region s table frame p o resource d hop htable hmaps hbuilds h =>
    have hmade : c.Makes env k k' p := ⟨kind, region, s, 0, frame, hop, hrun, hmaps, h.points⟩
    rcases h.edges hbuilds.resource_ptr hmn with ⟨hne, hold⟩ | hnew | rfl
    · exact .inl ⟨fun hm => hne (hm.unique hmade), hold⟩
    · exact .inr (.inl (hbuilds.reaches ht hnew))
    · exact .inr (.inr hmade)

end Calls

/-- **Confinement.** After a call by `c.thread` a thread `b` reaches what it reached before, what
the caller reached before, and the one object the call constructed, if it constructed one; a `Link`
or an `Unlink` gives the caller itself nothing new. After a run of calls by any threads it reaches
what was constructed in the run, what it reached at the start, and what some caller of the run
reached at the start. -/
theorem capability_confinement (env : Env) :
    (∀ k c k', Call.Step env k c k' →
      (∀ b n, Reaches env k'.objects b n → Reaches env k.objects b n ∨
        Reaches env k.objects c.thread n ∨ c.Makes env k k' n) ∧
      (∀ p q, c.Makes env k k' p → c.Makes env k k' q → p = q) ∧
      (∀ s other, c.op = .relink s other → ∀ n, Reaches env k'.objects c.thread n →
        Reaches env k.objects c.thread n)) ∧
    (∀ k cs k', Run (Call.Step env) k cs k' → ∀ b n, Reaches env k'.objects b n →
      MadeIn (Call.Step env) (Call.Makes env) k cs k' n ∨ Reaches env k.objects b n ∨
        ∃ c ∈ cs, Reaches env k.objects c.thread n) := by
  have hstep : ∀ k c k', Call.Step env k c k' → ∀ b n, Reaches env k'.objects b n →
      Reaches env k.objects b n ∨ Reaches env k.objects c.thread n ∨ c.Makes env k k' n := by
    rintro k c k' ⟨r, hrun⟩ b n hb
    exact reach_step (fun _ _ => Call.edges hrun) hb
  refine ⟨fun k c k' hc => ⟨hstep k c k' hc, fun p q => Call.Makes.unique, ?_⟩, ?_⟩
  · intro s other hop n hn
    rcases hstep k c k' hc c.thread n hn with h | h | ⟨_, _, _, _, _, hop', _⟩
    · exact h
    · exact h
    · exact absurd (hop.symm.trans hop') CapTableOp.relink_ne_construct
  · intro k cs k' hrun b n hb
    exact reach_run hstep hrun hb

/-- The thread of `oneThread` makes a table in a free frame and links it below its own. -/
def makeAndLink : List Call :=
  [⟨.free, oneCaller, 0, .construct .capTable 0 4⟩, ⟨.free, oneCaller, 0, .link 5 4⟩]

theorem capability_confinement_makeAndLink : ∃ k',
    Run (Call.Step Env.dev) oneThread makeAndLink k' ∧
    ∀ n, Reaches Env.dev k'.objects (pointerTo 1) n →
      MadeIn (Call.Step Env.dev) (Call.Makes Env.dev) oneThread makeAndLink k' n ∨
        Reaches Env.dev oneThread.objects (pointerTo 1) n := by
  have hcalls : wp (do
      let _ ← Thread.exerciseCap Env.dev (.mapping (frameAt 5)) (pointerTo 1) 0
        (.capTable (.construct .capTable 0 4))
      Thread.exerciseCap Env.dev (.mapping (frameAt 5)) (pointerTo 1) 0
        (.capTable (.link 5 4)))
      (fun r _ => r = .ok 0) (fun _ _ => False) oneThread := by decide +kernel
  obtain ⟨r₂, k₂, hrun, _⟩ := exists_of_wp hcalls
  obtain ⟨r₁, k₁, h₁, h₂⟩ := bind_eq_ok hrun
  have hsteps : Run (Call.Step Env.dev) oneThread makeAndLink k₂ :=
    .cons ⟨r₁, h₁⟩ (.cons ⟨r₂, h₂⟩ (.nil k₂))
  refine ⟨k₂, hsteps, fun n hn => ?_⟩
  rcases (capability_confinement Env.dev).2 _ _ _ hsteps _ n hn with h | h | ⟨c, hc, h⟩
  · exact .inl h
  · exact .inr h
  · -- the two calls have one caller
    have hcaller : c.thread = pointerTo 1 := by
      simp only [makeAndLink, List.mem_cons, List.not_mem_nil, or_false] at hc
      rcases hc with rfl | rfl <;> rfl
    rw [hcaller] at h
    exact .inr h

end Harmony
