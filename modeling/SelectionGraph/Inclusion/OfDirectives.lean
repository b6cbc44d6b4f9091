import SelectionGraph.BuildError
import SelectionGraph.Inclusion.Disjunction

/-!
# OfDirectives — what `@include` and `@skip` come to

- `Verdict.ofDirectives`   : the verdict of a directive list;
- `Verdict.scope?`         : the conditions that a scope with this verdict is entered under;
- `Inclusion.ofDirectives` : when the selection with these directives is included.

A literal that rules the selection out decides at once, whatever follows it.
-/

namespace SelectionGraph
namespace Verdict

/-- The directives that make a selection conditional, with whether they invert their argument. -/
def polarity? (directive : Name) : Option Bool :=
  if directive == "include" then some false
  else if directive == "skip" then some true
  else none

/-- Reads the directives from left to right, with the conditions read so far. -/
def read (conditions : List Condition) : List Directive → Except BuildError Verdict
  | [] => .ok (allOf conditions)
  | d :: rest =>
      match polarity? d.name with
      | none => read conditions rest
      | some isInverted =>
          match d.argument? "if" with
          | none => .error (.invalidArgument d.name "if" .missing)
          | some (.boolean value) =>
              if value == isInverted then .ok skipped else read conditions rest
          | some (.var name) => read (conditions ++ [⟨name, isInverted⟩]) rest
          | some other => .error (.invalidArgument d.name "if" (.notCondition other))

def ofDirectives (directives : List Directive) : Except BuildError Verdict :=
  read [] directives

/-- The conditions of a selection that is not skipped: none, or a conjunction. -/
def scope? : Verdict → Option (Option Conjunction)
  | included => some none
  | skipped => none
  | conditional c => some (some c)

end Verdict

/-- When a scope entered under these conditions is included. -/
def Inclusion.ofScope : Option Conjunction → Inclusion
  | none => always
  | some c => when (.single c)

/-- When a selection with these directives is included; `none` if it never is. -/
def Inclusion.ofDirectives (directives : List Directive) :
    Except BuildError (Option Inclusion) := do
  let verdict ← Verdict.ofDirectives directives
  return verdict.scope?.map Inclusion.ofScope

end SelectionGraph
