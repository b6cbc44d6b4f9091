import SelectionGraph.BuildError
import SelectionGraph.Text.Json

/-!
# Deferral — fragments delivered later in a response

- `Deferral`              : whether a fragment is deferred, or the variable that says so;
- `Deferral.ofDirectives` : what the first `@defer` of a directive list says;
- `Deferral.isDeferred`   : whether it may be delivered later.
-/

namespace SelectionGraph

/-- Whether a fragment is delivered later: as known from the document, or when a variable is
true. -/
inductive Deferral
  | value (isDeferred : Bool)
  | when (name : Name)
  deriving DecidableEq, Hashable, Repr

namespace Deferral

def immediate : Deferral :=
  value false

/-- What a directive list says.  Without an argument `@defer` defers. -/
def ofDirectives (directives : List Directive) : Except BuildError Deferral :=
  match Directive.find? directives "defer" with
  | none => .ok immediate
  | some d =>
      match d.argument? "if" with
      | none => .ok (value true)
      | some (.boolean isDeferred) => .ok (value isDeferred)
      | some (.var name) => .ok (when name)
      | some other => .error (.invalidArgument d.name "if" (.notCondition other))

/-- Whether the fragment may be delivered later: not when it is known that it is not. -/
def isDeferred : Deferral → Bool
  | value isDeferred => isDeferred
  | when _ => true

/-- A deferral in words. -/
def render : Deferral → String
  | value isDeferred => if isDeferred then "true" else "false"
  | when name => "if $" ++ name

/-- The directive that a deferral is rendered as, after a space; none when nothing is deferred. -/
def directiveText : Deferral → String
  | value false => ""
  | value true => " @defer"
  | when name => " @defer(if: " ++ name ++ ")"

def toJson : Deferral → Json
  | value isDeferred => .object [("Value", .bool isDeferred)]
  | when name => .object [("If", .string name)]

end Deferral
end SelectionGraph
