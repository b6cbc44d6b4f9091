import SelectionGraph.BuildError
import SelectionGraph.Document.Resolve
import SelectionGraph.Ordered
import SelectionGraph.Text.Json

/-!
# View — the part of a schema that a document refers to

- `ReferencedType`          : a type that the document uses, and whether it is a root type that some
  definition selects on;
- `SchemaView`              : a schema with these types, in the order of their first use;
- `SchemaView.ofDocument`   : the view of a document; fails at the first type that is unknown;
- `SchemaView.markingRoots` : the view with root types marked.

Operations come before fragments.  An operation uses the types of its variables first, then those of
its selections, depth first: the type of a selection set before the types of its fields.
-/

namespace SelectionGraph

/-! ## Types that selections use -/

namespace Selection

mutual

def types (parent : Name) : Selection → List Name
  | .field ⟨_, definition, _, _, selections⟩ =>
      let type := definition.type.innerName
      type :: type :: typesAll type selections
  | .inlineFragment condition _ selections =>
      let type := condition.getD parent
      type :: typesAll type selections
  | .fragmentSpread _ _ => []

def typesAll (parent : Name) : List Selection → List Name
  | [] => []
  | s :: ss => s.types parent ++ typesAll parent ss

end

end Selection

def OperationDefinition.types (o : OperationDefinition) : List Name :=
  o.variableDefinitions.map (·.type.innerName) ++ o.rootType :: Selection.typesAll o.rootType o.selections

def FragmentDefinition.types (f : FragmentDefinition) : List Name :=
  f.typeCondition :: Selection.typesAll f.typeCondition f.selections

/-- The types that a document uses, in order and with repetitions. -/
def Document.types (document : Document) : List Name :=
  document.operations.flatMap (·.definition.types) ++ document.fragments.flatMap (·.definition.types)

/-- The types that the definitions of a document select on. -/
def Document.rootTypes (document : Document) : List Name :=
  document.operations.map (·.definition.rootType)
    ++ document.fragments.map (·.definition.typeCondition)

/-! ## The view -/

/-- A type that a document uses. -/
structure ReferencedType where
  name : Name
  kind : TypeKind
  isRootFieldType : Bool
  deriving DecidableEq, Repr

def ReferencedType.toJson (t : ReferencedType) : Json :=
  .object [("name", .string t.name), ("kind", .string t.kind.label),
    ("is_root_field_type", .bool t.isRootFieldType)]

/-- A schema and the types of it that a document uses. -/
structure SchemaView where
  schema : Schema
  referenced : List ReferencedType

namespace SchemaView

/-- The view of a document, with no type marked as a root type. -/
def ofDocument (schema : Schema) (document : Document) : Except BuildError SchemaView := do
  let referenced ← document.types.eraseDups.mapM fun name =>
    match schema.kind? name with
    | some kind => .ok (ReferencedType.mk name kind false)
    | none => .error (.unknownType name)
  return ⟨schema, referenced⟩

def referenced? (view : SchemaView) (name : Name) : Option ReferencedType :=
  view.referenced.find? fun t => t.name == name

/-- Whether selections are made on the type of a name; fails if the schema has none. -/
def isComposite (view : SchemaView) (name : Name) : Except BuildError Bool :=
  match view.schema.kind? name with
  | some kind => .ok kind.isComposite
  | none => .error (.unknownType name)

/-- Whether the type of a name is marked as a root type that some definition selects on. -/
def isRootFieldType (view : SchemaView) (name : Name) : Bool :=
  (view.referenced? name).any ReferencedType.isRootFieldType

/-- The view with those of the names marked that are root types of the schema. -/
def markingRoots (view : SchemaView) (names : List Name) : SchemaView :=
  let isRoot := fun name => names.contains name && view.schema.rootTypes.contains name
  let mark := fun (t : ReferencedType) =>
    { t with isRootFieldType := t.isRootFieldType || isRoot t.name }
  { view with referenced := view.referenced.map mark }

end SchemaView
end SelectionGraph
