import SelectionGraph.Language.Definition

/-!
# Schema — the types that documents are read against

- `SchemaType`        : a type with its kind and fields;
- `Schema`            : the types by name, the root types, and the documentation;
- `Schema.kind?`      : the kind of a named type;
- `Schema.fieldOf?`   : the field that a selection of a name on a type selects;
- `Schema.rootTypes`  : the root types of queries, mutations and subscriptions.
-/

namespace SelectionGraph

/-- A type of a schema. -/
structure SchemaType where
  name : Name
  kind : TypeKind
  fields : List FieldDefinition
  deriving DecidableEq, Repr

/-- A schema: its types, the root type of each kind of operation, and the description that its
`schema` definition carries. -/
structure Schema where
  types : List SchemaType
  roots : List (OperationKind × Name)
  documentation : Option String
  deriving Repr

namespace Schema

/-! ## Look-ups -/

def type? (schema : Schema) (name : Name) : Option SchemaType :=
  schema.types.find? fun t => t.name == name

def kind? (schema : Schema) (name : Name) : Option TypeKind :=
  (schema.type? name).map SchemaType.kind

def root? (schema : Schema) (kind : OperationKind) : Option Name :=
  (schema.roots.find? fun r => r.1 == kind).map Prod.snd

/-- The root types that the schema has, without repetition: that of queries first, then those of
mutations and subscriptions. -/
def rootTypes (schema : Schema) : List Name :=
  (OperationKind.all.filterMap schema.root?).eraseDups

/-! ## Fields -/

/-- The field by which every composite type tells its name. -/
def typenameField : FieldDefinition :=
  ⟨none, "__typename", [], .nonNullNamed "String", []⟩

/-- The fields by which the query root tells about the schema. -/
def introspectionFields : List FieldDefinition :=
  [⟨none, "__schema", [], .nonNullNamed "__Schema", []⟩,
   ⟨none, "__type", [⟨none, "name", .nonNullNamed "String", none, []⟩], .named "__Type", []⟩]

/-- The field that selecting `field` on `type` selects: one of the type's own, the name of a
composite type, or one of the query root's fields about the schema. -/
def fieldOf? (schema : Schema) (type field : Name) : Option FieldDefinition :=
  match schema.type? type with
  | none => none
  | some t =>
      match t.fields.find? fun f => f.name == field with
      | some f => some f
      | none =>
          if field == typenameField.name && t.kind.isComposite then some typenameField
          else if schema.root? .query == some type then
            introspectionFields.find? fun f => f.name == field
          else none

end Schema
end SelectionGraph
