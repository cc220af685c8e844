import Mathlib.Algebra.BigOperators.Group.List.Basic
import Mathlib.Data.List.Induction

/-!
# Programs of single accesses to one value

`Accesses T U` is a program that reads and writes one value of type `T` and returns a `U`. Its
accesses can be taken one at a time; `eval` is what they do together when nothing comes in between.

`serialValue` and `serialOuts` are the value and the results after a list of programs, one after
another. `serial_sum` is the law for what programs take from the value and add to it.
-/

namespace Harmony.Lib

/-- A program, by its next access. -/
inductive Accesses (T U : Type) where
  | ret (out : U)
  | read (k : T → Accesses T U)
  | write (v : T) (k : Accesses T U)

variable {T U C : Type}

/-- All accesses in a row. -/
def Accesses.eval : Accesses T U → T → T × U
  | .ret out, v => (v, out)
  | .read k, v => (k v).eval v
  | .write w k, _ => k.eval w

/-- The value after the programs of `cs`. -/
def serialValue (prog : C → Accesses T U) (v : T) (cs : List C) : T :=
  cs.foldl (fun v c => ((prog c).eval v).1) v

/-- The results of the programs of `cs`. -/
def serialOuts (prog : C → Accesses T U) : T → List C → List U
  | _, [] => []
  | v, c :: cs => ((prog c).eval v).2 :: serialOuts prog ((prog c).eval v).1 cs

variable {prog : C → Accesses T U} {v : T} {cs : List C} {c : C}

theorem serialValue_concat :
    serialValue prog v (cs ++ [c]) = ((prog c).eval (serialValue prog v cs)).1 := by
  unfold serialValue
  rw [List.foldl_concat]

@[simp] theorem length_serialOuts : (serialOuts prog v cs).length = cs.length := by
  induction cs generalizing v with
  | nil => rfl
  | cons c cs ih => rw [serialOuts, List.length_cons, List.length_cons, ih]

/-- The result of a program in the middle of a list. -/
theorem serialOuts_append_cons {ds : List C} : serialOuts prog v (cs ++ c :: ds) =
    serialOuts prog v cs ++ ((prog c).eval (serialValue prog v cs)).2 ::
      serialOuts prog (serialValue prog v (cs ++ [c])) ds := by
  induction cs generalizing v with
  | nil => rfl
  | cons d cs ih =>
    rw [List.cons_append, serialOuts, ih]
    rfl

theorem serialOuts_concat : serialOuts prog v (cs ++ [c]) =
    serialOuts prog v cs ++ [((prog c).eval (serialValue prog v cs)).2] := serialOuts_append_cons

/-- **Conservation.** If what a program returns and leaves is what it found and was given, so it is
for programs one after another. -/
theorem serial_sum {W : Type} [AddCommMonoid W] (held : T → W) {out : U → W} {given : C → W}
    (h : ∀ c v, out ((prog c).eval v).2 + held ((prog c).eval v).1 = held v + given c) :
    ((serialOuts prog v cs).map out).sum + held (serialValue prog v cs) =
      held v + (cs.map given).sum := by
  induction cs using List.reverseRecOn with
  | nil => simp [serialOuts, serialValue]
  | append_singleton cs c ih =>
    rw [serialOuts_concat, serialValue_concat, List.map_append, List.sum_append, List.map_singleton,
      List.sum_singleton, add_assoc, h, ← add_assoc, ih, List.map_append, List.sum_append,
      List.map_singleton, List.sum_singleton, add_assoc]

end Harmony.Lib
