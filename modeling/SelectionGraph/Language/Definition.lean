import SelectionGraph.Language.Directive

/-!
# Definition — documents as written

What a document holds before any name in it is looked up: operations, fragments and the
definitions of a schema.

- `FieldDefinition`, `InputValueDefinition` : fields and arguments of types;
- `Written.Selection`                      : selections as written;
- `Written.Definition`                     : the definitions of a document.

Of a type definition only its kind, fields and input fields are kept: nothing else about a type is
ever asked.
-/

namespace SelectionGraph

/-! ## Kinds -/

/-- The kinds of operations. -/
inductive OperationKind
  | query
  | mutation
  | subscription
  deriving DecidableEq, Repr

namespace OperationKind

def keyword : OperationKind → String
  | query => "query"
  | mutation => "mutation"
  | subscription => "subscription"

/-- The name of the root type of a kind in a schema that does not say otherwise. -/
def defaultRoot : OperationKind → Name
  | query => "Query"
  | mutation => "Mutation"
  | subscription => "Subscription"

/-- All kinds, in the order in which a schema lists its root types. -/
def all : List OperationKind :=
  [query, mutation, subscription]

end OperationKind

/-- The kinds of types. -/
inductive TypeKind
  | scalar
  | object
  | interface
  | union
  | enum
  | inputObject
  deriving DecidableEq, Repr

namespace TypeKind

def label : TypeKind → String
  | scalar => "Scalar"
  | object => "Object"
  | interface => "Interface"
  | union => "Union"
  | enum => "Enum"
  | inputObject => "InputObject"

/-- Composite types are those that selections are made on. -/
def isComposite : TypeKind → Bool
  | object | interface | union => true
  | scalar | enum | inputObject => false

end TypeKind

/-! ## Fields and arguments of types -/

/-- An argument of a field or directive, or a field of an input object. -/
structure InputValueDefinition where
  description : Option String
  name : Name
  type : TypeRef
  default : Option Literal
  directives : List Directive
  deriving DecidableEq, Repr

/-- A field of an object or interface. -/
structure FieldDefinition where
  description : Option String
  name : Name
  arguments : List InputValueDefinition
  type : TypeRef
  directives : List Directive
  deriving DecidableEq, Repr

/-- A variable of an operation. -/
structure VariableDefinition where
  name : Name
  type : TypeRef
  default : Option Literal
  directives : List Directive
  deriving DecidableEq, Repr

namespace Written

/-! ## Selections and definitions as written -/

/-- A selection as written. -/
inductive Selection
  | field (label : Option Name) (name : Name) (arguments : List Argument)
      (directives : List Directive) (selections : List Selection)
  | inlineFragment (typeCondition : Option Name) (directives : List Directive)
      (selections : List Selection)
  | fragmentSpread (name : Name) (directives : List Directive)
  deriving Repr

/-- An operation as written. -/
structure Operation where
  kind : OperationKind
  name : Option Name
  variableDefinitions : List VariableDefinition
  directives : List Directive
  selections : List Selection
  deriving Repr

/-- A named fragment as written. -/
structure Fragment where
  name : Name
  typeCondition : Name
  directives : List Directive
  selections : List Selection
  deriving Repr

/-- A type as written, or what an extension adds to one. -/
structure TypeDefinition where
  kind : TypeKind
  name : Name
  fields : List FieldDefinition
  inputFields : List InputValueDefinition
  deriving Repr

/-- A definition of a document. -/
inductive Definition
  | operation (operation : Operation)
  | fragment (fragment : Fragment)
  | schema (description : Option String) (roots : List (OperationKind × Name))
  | schemaExtension (roots : List (OperationKind × Name))
  | type (definition : TypeDefinition)
  | typeExtension (definition : TypeDefinition)
  | directive (name : Name) (arguments : List InputValueDefinition)
  deriving Repr

end Written
end SelectionGraph
