import SelectionGraph.Schema.Basic

/-!
# Introspection — the types that every schema has

The types by which a schema describes itself, `Introspection.types`: six objects with their fields
and two enums.  They name no type but one another, `String` and `Boolean`.
-/

namespace SelectionGraph
namespace Introspection

def plain (name : Name) (type : TypeRef) : FieldDefinition :=
  ⟨none, name, [], type, []⟩

/-- A field that can leave out what is deprecated. -/
def withDeprecated (name : Name) (type : TypeRef) : FieldDefinition :=
  ⟨none, name, [⟨none, "includeDeprecated", .named "Boolean", some (.boolean false), []⟩], type, []⟩

/-- A list without null in it, of a type. -/
def listOf (name : Name) : TypeRef :=
  .list (.nonNullNamed name)

/-- The same list, which is itself not null. -/
def someListOf (name : Name) : TypeRef :=
  .nonNullList (.nonNullNamed name)

def types : List SchemaType :=
  [⟨"__Schema", .object,
      [plain "description" (.named "String"), plain "types" (someListOf "__Type"),
       plain "queryType" (.nonNullNamed "__Type"), plain "mutationType" (.named "__Type"),
       plain "subscriptionType" (.named "__Type"), plain "directives" (someListOf "__Directive")]⟩,
   ⟨"__Type", .object,
      [plain "kind" (.nonNullNamed "__TypeKind"), plain "name" (.named "String"),
       plain "description" (.named "String"), withDeprecated "fields" (listOf "__Field"),
       plain "interfaces" (listOf "__Type"), plain "possibleTypes" (listOf "__Type"),
       withDeprecated "enumValues" (listOf "__EnumValue"),
       withDeprecated "inputFields" (listOf "__InputValue"), plain "ofType" (.named "__Type"),
       plain "specifiedByURL" (.named "String")]⟩,
   ⟨"__TypeKind", .enum, []⟩,
   ⟨"__Field", .object,
      [plain "name" (.nonNullNamed "String"), plain "description" (.named "String"),
       withDeprecated "args" (someListOf "__InputValue"), plain "type" (.nonNullNamed "__Type"),
       plain "isDeprecated" (.nonNullNamed "Boolean"),
       plain "deprecationReason" (.named "String")]⟩,
   ⟨"__InputValue", .object,
      [plain "name" (.nonNullNamed "String"), plain "description" (.named "String"),
       plain "type" (.nonNullNamed "__Type"), plain "defaultValue" (.named "String"),
       plain "isDeprecated" (.nonNullNamed "Boolean"),
       plain "deprecationReason" (.named "String")]⟩,
   ⟨"__EnumValue", .object,
      [plain "name" (.nonNullNamed "String"), plain "description" (.named "String"),
       plain "isDeprecated" (.nonNullNamed "Boolean"),
       plain "deprecationReason" (.named "String")]⟩,
   ⟨"__Directive", .object,
      [plain "name" (.nonNullNamed "String"), plain "description" (.named "String"),
       plain "locations" (someListOf "__DirectiveLocation"),
       withDeprecated "args" (someListOf "__InputValue"),
       plain "isRepeatable" (.nonNullNamed "Boolean")]⟩,
   ⟨"__DirectiveLocation", .enum, []⟩]

end Introspection
end SelectionGraph
