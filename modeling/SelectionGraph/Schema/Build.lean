import SelectionGraph.Language.Source
import SelectionGraph.Schema.Introspection

/-!
# Build — a schema put together from its definitions

- `Schema.ofSource` : the schema that definitions and extensions make up;
- `Schema.read?`    : a schema from its text.

A schema has the types that it defines, those that describe it, `String` and `Boolean`; the other
built-in scalars are there only when something in the schema has that type.
-/

namespace SelectionGraph
namespace Schema

open Written (Source Definition TypeDefinition)

/-! ## What the definitions say -/

/-- The type definitions, extensions left out. -/
def definedTypes (source : Source) : List TypeDefinition :=
  source.filterMap fun d => match d.definition with
    | .type t => some t
    | _ => none

def typeExtensions (source : Source) : List TypeDefinition :=
  source.filterMap fun d => match d.definition with
    | .typeExtension t => some t
    | _ => none

def directiveArguments (source : Source) : List InputValueDefinition :=
  source.flatMap fun d => match d.definition with
    | .directive _ arguments => arguments
    | _ => []

/-- The root types that the `schema` definition lists, when there is one. -/
def definedRoots? (source : Source) : Option (List (OperationKind × Name)) :=
  source.findSome? fun d => match d.definition with
    | .schema _ roots => some roots
    | _ => none

/-- The root types that extensions of the schema add. -/
def addedRoots (source : Source) : List (OperationKind × Name) :=
  source.flatMap fun d => match d.definition with
    | .schemaExtension roots => roots
    | _ => []

def description? (source : Source) : Option String :=
  source.findSome? fun d => match d.definition with
    | .schema description _ => description
    | _ => none

/-! ## Putting the schema together -/

/-- A type with the fields that extensions add to it after its own. -/
def extended (extensions : List TypeDefinition) (t : TypeDefinition) : SchemaType :=
  let added := extensions.filter fun e => e.name == t.name
  ⟨t.name, t.kind, t.fields ++ added.flatMap TypeDefinition.fields⟩

/-- The named types of the fields and arguments of a type. -/
def mentioned (t : TypeDefinition) : List Name :=
  t.inputFields.map (·.type.innerName)
    ++ t.fields.flatMap fun f => f.type.innerName :: f.arguments.map (·.type.innerName)

/-- The built-in scalars that a schema with these definitions has: two always, the others when
mentioned. -/
def builtInScalars (source : Source) : List SchemaType :=
  let used := (definedTypes source ++ typeExtensions source).flatMap mentioned
    ++ (directiveArguments source).map (·.type.innerName)
  let present := ["String", "Boolean"] ++ ["Int", "Float", "ID"].filter used.contains
  present.map fun name => ⟨name, .scalar, []⟩

/-- The root types of a schema without a `schema` definition: the objects of the usual names. -/
def defaultRoots (types : List SchemaType) : List (OperationKind × Name) :=
  OperationKind.all.filterMap fun kind =>
    if types.any fun t => t.name == kind.defaultRoot && t.kind == .object then
      some (kind, kind.defaultRoot)
    else none

def ofSource (source : Source) : Schema :=
  let defined := (definedTypes source).map (extended (typeExtensions source))
  { types := defined ++ Introspection.types ++ builtInScalars source
    roots := (definedRoots? source).getD (defaultRoots defined) ++ addedRoots source
    documentation := description? source }

def read? (text : String) : Option Schema :=
  (Source.read? text).map ofSource

end Schema
end SelectionGraph
