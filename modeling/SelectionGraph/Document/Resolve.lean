import SelectionGraph.Document.Basic
import SelectionGraph.Schema.Build

/-!
# Resolve — a document looked up in a schema

- `Selection.resolveAll` : selections on a type;
- `Document.ofSource`    : the operations and fragments of a document;
- `Document.read?`       : a document from its text.

A document need not be valid.  What the schema does not know is left out where it stands, with all
it holds: fields that a type does not have, fragments on unknown types, operations without a root
type.  Of definitions that share a name the first is kept.
-/

namespace SelectionGraph

namespace Selection

/-- Whether a field of this type has no selections of its own. -/
def isLeaf (schema : Schema) (type : TypeRef) : Bool :=
  match schema.kind? type.innerName with
  | some .scalar => true
  | some .enum => true
  | _ => false

mutual

/-- A selection on a type, unless the schema does not know it.  A leaf that is written with
selections is not known either. -/
def resolve (schema : Schema) (type : Name) : Written.Selection → Option Selection
  | .field label name arguments directives selections =>
      match schema.fieldOf? type name with
      | none => none
      | some definition =>
          -- A composite field may lack selections; a leaf may not have any.
          if !selections.isEmpty && isLeaf schema definition.type then none
          else
            let inner := resolveAll schema definition.type.innerName selections
            some (.field ⟨label, definition, arguments, directives, inner⟩)
  | .inlineFragment none directives selections =>
      some (.inlineFragment none directives (resolveAll schema type selections))
  | .inlineFragment (some condition) directives selections =>
      if (schema.type? condition).isSome then
        some (.inlineFragment (some condition) directives (resolveAll schema condition selections))
      else none
  | .fragmentSpread name directives => some (.fragmentSpread name directives)

def resolveAll (schema : Schema) (type : Name) : List Written.Selection → List Selection
  | [] => []
  | s :: ss => (resolve schema type s).toList ++ resolveAll schema type ss

end

end Selection

namespace Document

open Written (Source Definition)

/-- An operation, if the schema has a root type for it. -/
def resolveOperation (schema : Schema) (o : Written.Operation) : Option OperationDefinition := do
  let root ← schema.root? o.kind
  return ⟨o.kind, o.name, o.variableDefinitions, o.directives, root,
    Selection.resolveAll schema root o.selections⟩

def resolveFragment (schema : Schema) (f : Written.Fragment) : Option FragmentDefinition := do
  let type ← schema.type? f.typeCondition
  return ⟨f.name, type.name, f.directives, Selection.resolveAll schema type.name f.selections⟩

/-- Whether an operation may stand beside those before it: a name is used once, and an operation
without a name has none before it. -/
def admits (document : Document) (name : Option Name) : Bool :=
  match name with
  | none => document.operations.isEmpty
  | some _ => !document.operations.any fun o => o.definition.name == name

/-- A document with one more definition, if it is kept. -/
def addDefinition (schema : Schema) (document : Document) (d : Written.Passage) :
    Document :=
  match d.definition with
  | .operation o =>
      match resolveOperation schema o with
      | some definition =>
          if document.admits o.name then
            { document with operations := document.operations ++ [⟨definition, some d.text⟩] }
          else document
      | none => document
  | .fragment f =>
      match resolveFragment schema f with
      | some definition =>
          if (document.fragment? f.name).isNone then
            { document with fragments := document.fragments ++ [⟨definition, some d.text⟩] }
          else document
      | none => document
  | _ => document

/-- The operations and fragments of a source that the schema knows. -/
def ofSource (schema : Schema) (source : Source) : Document :=
  source.foldl (addDefinition schema) ⟨[], []⟩

def read? (schema : Schema) (text : String) : Option Document :=
  (Source.read? text).map (ofSource schema)

end Document
end SelectionGraph
