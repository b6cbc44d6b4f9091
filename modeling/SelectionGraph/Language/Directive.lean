import SelectionGraph.Language.Literal

/-!
# Directive — annotations on the parts of a document

A directive list may repeat a directive, and a directive may repeat an argument.  Look-ups by name
take the first.

- `Argument`, `Directive` : what is written after a field or an `@`;
- `Directive.argument?`   : the value of the first argument of a name;
- `Directive.find?`       : the first directive of a name in a list.
-/

namespace SelectionGraph

/-- An argument with its value. -/
structure Argument where
  name : Name
  value : Literal
  deriving DecidableEq, Repr

/-- A directive with its arguments, as written. -/
structure Directive where
  name : Name
  arguments : List Argument
  deriving DecidableEq, Repr

namespace Directive

def argument? (d : Directive) (name : Name) : Option Literal :=
  (d.arguments.find? fun a => a.name == name).map Argument.value

def find? (ds : List Directive) (name : Name) : Option Directive :=
  List.find? (fun d => d.name == name) ds

/-- Whether a directive of this name is in the list. -/
def has (ds : List Directive) (name : Name) : Bool :=
  ds.any fun d => d.name == name

end Directive
end SelectionGraph
