import SelectionGraph.Text.Json
import SelectionGraph.Ordered
import SelectionGraph.Language.TypeRef

/-!
# FieldCollector — the fields selected on each type

- `FieldCollector`         : types with the fields selected on them, in the order of the first
  selection;
- `FieldCollector.collect` : one more selection; the first type of a field stays.
-/

namespace SelectionGraph

/-- The fields, with their types, selected on each type. -/
structure FieldCollector where
  fieldsByType : List (Name × List (Name × TypeRef))
  deriving DecidableEq, Repr

namespace FieldCollector

def empty : FieldCollector :=
  ⟨[]⟩

/-- Records that a field was selected on a type.  A field that is recorded already stays as it
is. -/
def collect (collector : FieldCollector) (parent field : Name) (type : TypeRef) : FieldCollector :=
  let addField := Ordered.upsert (fun f => f.1 == field) id (field, type)
  ⟨Ordered.upsert (fun t => t.1 == parent) (fun t => (t.1, addField t.2)) (parent, [(field, type)])
    collector.fieldsByType⟩

/-- The fields selected on a type, in the order they were first selected. -/
def fieldsFor (collector : FieldCollector) (parent : Name) : List (Name × TypeRef) :=
  (collector.fieldsByType.lookup parent).getD []

def types (collector : FieldCollector) : List Name :=
  collector.fieldsByType.map Prod.fst

def toJson (collector : FieldCollector) : Json :=
  let members := collector.fieldsByType.map fun (type, fields) =>
    (type, Json.object (fields.map fun (name, ty) => (name, .string ty.render)))
  .object [("fields_by_type", .object members)]

end FieldCollector
end SelectionGraph
