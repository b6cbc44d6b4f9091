import SelectionGraph.Text.Json
import SelectionGraph.Language.TypeRef

/-!
# Conjunction — variable conditions that all have to hold

A selection guarded by `@include(if: $a) @skip(if: $b)` is included when `$a` is true and `$b` is
not.

- `Condition`         : one variable, required to be true or to be false;
- `Conjunction`       : conditions that all have to hold; never empty, and with one condition at
  most for each variable, so that none is contradictory;
- `Verdict`           : what conditions come to once they are put together;
- `Verdict.allOf`     : conditions put together;
- `Conjunction.merge` : two conjunctions put together.

Two conjunctions are equal (`==`) when they have the same conditions, in whatever order.
-/

namespace SelectionGraph

/-! ## Conditions -/

/-- A requirement on a variable: that it is true, or, inverted, that it is false. -/
structure Condition where
  name : Name
  isInverted : Bool
  deriving DecidableEq, Repr

namespace Condition

instance : Hashed Condition := ⟨fun c => hashParts c.name ++ hashParts c.isInverted⟩

def render (c : Condition) : String :=
  (if c.isInverted then "!$" else "$") ++ c.name

/-- The directive that requires a condition, after a space. -/
def directiveText (c : Condition) : String :=
  (if c.isInverted then " @skip(if: $" else " @include(if: $") ++ c.name ++ ")"

def toJson (c : Condition) : Json :=
  .object [("variable", .string c.name), ("is_inverted", .bool c.isInverted)]

end Condition

/-! ## Conjunctions -/

/-- Conditions that all have to hold, in the order they were first required. -/
structure Conjunction where
  conditions : List Condition
  conditions_ne_nil : conditions ≠ []
  nodup_names : (conditions.map Condition.name).Nodup

namespace Conjunction

/-- Whether two conjunctions have the same conditions. -/
def same (c d : Conjunction) : Bool :=
  c.conditions.length == d.conditions.length && c.conditions.all d.conditions.contains

instance : BEq Conjunction := ⟨same⟩

/-- The conditions in the order of their variables' names, which does not depend on the order they
were required in. -/
def sorted (c : Conjunction) : List Condition :=
  c.conditions.mergeSort fun d e => decide (d.name ≤ e.name)

/-- Equal conjunctions are hashed alike. -/
instance : Hashed Conjunction := ⟨fun c => hashParts c.sorted⟩

instance : Hashable Conjunction := Hashed.hashable Conjunction hash

def size (c : Conjunction) : Nat :=
  c.conditions.length

def contains (c : Conjunction) (condition : Condition) : Bool :=
  c.conditions.contains condition

def render (c : Conjunction) : String :=
  " && ".intercalate (c.conditions.map Condition.render)

/-- The directives that require a conjunction, each after a space. -/
def directiveText (c : Conjunction) : String :=
  String.join (c.conditions.map Condition.directiveText)

/-- A conjunction as JSON: the variables with whether they are inverted. -/
def toJson (c : Conjunction) : Json :=
  .object (c.conditions.map fun condition => (condition.name, .bool condition.isInverted))

end Conjunction

/-! ## Putting conditions together -/

/-- What conditions come to: they always hold, they never do, or they are a conjunction. -/
inductive Verdict
  | included
  | skipped
  | conditional (conditions : Conjunction)
  deriving BEq

namespace Verdict

/-- Adds conditions one by one to those gathered before; `none` when a variable is required to be
true and to be false. -/
def gather (gathered : List Condition) : List Condition → Option (List Condition)
  | [] => some gathered
  | c :: rest =>
      match gathered.find? fun d => d.name == c.name with
      | some d => if d.isInverted == c.isInverted then gather gathered rest else none
      | none => gather (gathered ++ [c]) rest

/-- Gathering keeps one condition for each variable. -/
theorem nodup_of_gather {gathered conditions result : List Condition}
    (nodup : (gathered.map Condition.name).Nodup)
    (h : gather gathered conditions = some result) : (result.map Condition.name).Nodup := by
  induction conditions generalizing gathered with
  | nil =>
      simp only [gather, Option.some.injEq] at h
      exact h ▸ nodup
  | cons c rest ih =>
      rw [gather] at h
      split at h
      · split at h
        · exact ih nodup h
        · cases h
      · rename_i absent
        refine ih ?_ h
        simp only [List.find?_eq_none, beq_iff_eq] at absent
        simp only [List.map_append, List.map_cons, List.map_nil]
        refine List.nodup_append.mpr ⟨nodup, by simp, ?_⟩
        intro name mem other eq same
        obtain ⟨d, hd, rfl⟩ := List.mem_map.mp mem
        simp only [List.mem_singleton] at eq
        exact absent d hd (same.trans eq)

/-- The verdict on conditions that all have to hold: included when there are none, skipped when two
contradict each other. -/
def allOf (conditions : List Condition) : Verdict :=
  match h : gather [] conditions with
  | none => skipped
  | some [] => included
  | some (c :: rest) =>
      conditional ⟨c :: rest, List.cons_ne_nil c rest, nodup_of_gather (by simp) h⟩

def conjunction? : Verdict → Option Conjunction
  | conditional c => some c
  | _ => none

end Verdict

/-- Both conjunctions have to hold. -/
def Conjunction.merge (c d : Conjunction) : Verdict :=
  Verdict.allOf (c.conditions ++ d.conditions)

end SelectionGraph
