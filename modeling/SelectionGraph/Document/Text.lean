import SelectionGraph.Document.Basic
import SelectionGraph.Language.LiteralText

/-!
# Text — definitions written back on one line

`OperationDefinition.text` and `FragmentDefinition.text` write what was kept of a definition.  They
stand for its source text where that is not known.
-/

namespace SelectionGraph

namespace Selection

/-- The texts of selections in braces, separated by spaces. -/
def braced (items : List String) : String :=
  if items.isEmpty then "\x7b\x7d" else "\x7b " ++ " ".intercalate items ++ " \x7d"

mutual

/-- The text of a field; a field without selections has no braces. -/
def fieldText : FieldSelection → String
  | ⟨label, definition, arguments, directives, selections⟩ =>
      (label.elim "" (· ++ ": ")) ++ definition.name ++ Argument.renderAll arguments
        ++ Directive.renderAll directives
        ++ (if selections.isEmpty then "" else " " ++ braced (texts selections))

def text : Selection → String
  | .field f => fieldText f
  | .inlineFragment condition directives selections =>
      "..." ++ condition.elim "" (" on " ++ ·) ++ Directive.renderAll directives
        ++ " " ++ braced (texts selections)
  | .fragmentSpread name directives => "..." ++ name ++ Directive.renderAll directives

def texts : List Selection → List String
  | [] => []
  | s :: ss => s.text :: texts ss

end

end Selection

def VariableDefinition.text (v : VariableDefinition) : String :=
  "$" ++ v.name ++ ": " ++ v.type.render ++ v.default.elim "" (" = " ++ ·.oneLine)
    ++ Directive.renderAll v.directives

/-- The text of an operation.  A query with neither name, variables nor directives is written as its
selections alone. -/
def OperationDefinition.text (o : OperationDefinition) : String :=
  let body := Selection.braced (Selection.texts o.selections)
  if o.kind == .query && o.name.isNone && o.variableDefinitions.isEmpty && o.directives.isEmpty then body
  else
    let defined :=
      if o.variableDefinitions.isEmpty then ""
      else "(" ++ ", ".intercalate (o.variableDefinitions.map VariableDefinition.text) ++ ")"
    o.kind.keyword ++ o.name.elim "" (" " ++ ·) ++ defined ++ Directive.renderAll o.directives
      ++ " " ++ body

def FragmentDefinition.text (f : FragmentDefinition) : String :=
  "fragment " ++ f.name ++ " on " ++ f.typeCondition ++ Directive.renderAll f.directives
    ++ " " ++ Selection.braced (Selection.texts f.selections)

end SelectionGraph
