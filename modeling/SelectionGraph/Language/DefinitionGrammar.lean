import SelectionGraph.Language.Grammar

/-!
# DefinitionGrammar — reading the definitions of a document

- `Grammar.operation`, `Grammar.fragment`    : definitions of executable documents;
- `Grammar.schemaRoots`, `typeDefinition` …  : definitions of schemas, and their extensions;
- `Grammar.definition`                       : any of them.

`depth` bounds the nesting of what a definition holds, as in `Grammar`.
-/

namespace SelectionGraph
namespace Grammar

open Reader
open Written (Definition TypeDefinition)

/-! ## Parts of definitions -/

/-- A default value, if one follows. -/
def default? (depth : Nat) : Reader (Option Literal) := do
  if ← accept (mark '=') then return some (← value depth) else return none

def variableDefinition (depth : Nat) : Reader VariableDefinition := do
  expect (mark '$')
  let n ← name
  expect (mark ':')
  let type ← typeRef depth
  let default ← default? depth
  return ⟨n, type, default, ← directives depth⟩

/-- An argument of a field or directive, or a field of an input object. -/
def inputValue (depth : Nat) : Reader InputValueDefinition := do
  let description ← string?
  let n ← name
  expect (mark ':')
  let type ← typeRef depth
  let default ← default? depth
  return ⟨description, n, type, default, ← directives depth⟩

/-- The arguments that a field or directive is defined with. -/
def argumentDefinitions (depth : Nat) : Reader (List InputValueDefinition) :=
  betweenOrNone (mark '(') (mark ')') (inputValue depth)

def fieldDefinition (depth : Nat) : Reader FieldDefinition := do
  let description ← string?
  let n ← name
  let arguments ← argumentDefinitions depth
  expect (mark ':')
  let type ← typeRef depth
  return ⟨description, n, arguments, type, ← directives depth⟩

/-- A value of an enum; what it is called is never asked. -/
def enumValue (depth : Nat) : Reader Unit := do
  let _ ← string?
  let _ ← name
  let _ ← directives depth

/-- Names separated by a mark, which may also lead them. -/
def separatedNames (separator : Char) : Reader (List Name) := do
  let _ ← accept (mark separator)
  let first ← name
  return first :: (← ledBy (mark separator) name)

def interfaces : Reader (List Name) := do
  if ← accept (.name "implements") then separatedNames '&' else return []

/-! ## Executable definitions -/

def operationKind? (keyword : Name) : Option OperationKind :=
  OperationKind.all.find? fun kind => kind.keyword == keyword

/-- An operation after its keyword. -/
def operation (depth : Nat) (kind : OperationKind) : Reader Written.Operation := do
  let named ← get
  let n ← match named with
    | .name _ :: _ => some <$> name
    | _ => pure none
  let defined ← betweenOrNone (mark '(') (mark ')') (variableDefinition depth)
  let ds ← directives depth
  return ⟨kind, n, defined, ds, ← selectionSet depth⟩

/-- A fragment after its keyword.  Its name is not `on`. -/
def fragment (depth : Nat) : Reader Written.Fragment := do
  let n ← name
  if n == "on" then failure
  expect (.name "on")
  let typeCondition ← name
  let ds ← directives depth
  return ⟨n, typeCondition, ds, ← selectionSet depth⟩

/-! ## Schema definitions -/

def schemaRoot : Reader (OperationKind × Name) := do
  let kind ← StateT.lift (operationKind? (← name))
  expect (mark ':')
  return (kind, ← name)

/-- A schema's root types, after its keyword. -/
def schemaRoots (depth : Nat) : Reader (List (OperationKind × Name)) := do
  let _ ← directives depth
  betweenOrNone (mark '\x7b') (mark '\x7d') schemaRoot

/-- A type, or what is added to one, after the keyword of its kind. -/
def typeDefinition (depth : Nat) (kind : TypeKind) : Reader TypeDefinition := do
  let n ← name
  match kind with
  | .scalar =>
      let _ ← directives depth
      return ⟨kind, n, [], []⟩
  | .object | .interface =>
      let _ ← interfaces
      let _ ← directives depth
      return ⟨kind, n, ← betweenOrNone (mark '\x7b') (mark '\x7d') (fieldDefinition depth), []⟩
  | .union =>
      let _ ← directives depth
      if ← accept (mark '=') then
        let _ ← separatedNames '|'
      return ⟨kind, n, [], []⟩
  | .enum =>
      let _ ← directives depth
      let _ ← betweenOrNone (mark '\x7b') (mark '\x7d') (enumValue depth)
      return ⟨kind, n, [], []⟩
  | .inputObject =>
      let _ ← directives depth
      return ⟨kind, n, [], ← betweenOrNone (mark '\x7b') (mark '\x7d') (inputValue depth)⟩

/-- A directive definition after its keyword: its arguments, and the places it may stand at. -/
def directiveDefinition (depth : Nat) : Reader (Name × List InputValueDefinition) := do
  expect (mark '@')
  let n ← name
  let arguments ← argumentDefinitions depth
  let _ ← accept (.name "repeatable")
  expect (.name "on")
  let _ ← separatedNames '|'
  return (n, arguments)

def typeKind? (keyword : Name) : Option TypeKind :=
  [("scalar", TypeKind.scalar), ("type", .object), ("interface", .interface), ("union", .union),
    ("enum", .enum), ("input", .inputObject)].lookup keyword

/-! ## Definitions -/

/-- A definition after the keyword `extend`. -/
def extension (depth : Nat) : Reader Definition := do
  let keyword ← name
  if keyword == "schema" then return .schemaExtension (← schemaRoots depth)
  else return .typeExtension (← typeDefinition depth (← StateT.lift (typeKind? keyword)))

def keywordDefinition (depth : Nat) (description : Option String) : Reader Definition := do
  let keyword ← name
  match typeKind? keyword, operationKind? keyword with
  | some kind, _ => return .type (← typeDefinition depth kind)
  | none, some kind => return .operation (← operation depth kind)
  | none, none =>
      if keyword == "fragment" then return .fragment (← fragment depth)
      else if keyword == "schema" then return .schema description (← schemaRoots depth)
      else if keyword == "extend" then extension depth
      else if keyword == "directive" then
        let (n, arguments) ← directiveDefinition depth
        return .directive n arguments
      else failure

/-- A definition.  A selection set by itself is a query without a name. -/
def definition (depth : Nat) : Reader Definition := do
  if ← next? (mark '\x7b') then
    return .operation ⟨.query, none, [], [], ← selectionSet depth⟩
  else
    let description ← string?
    keywordDefinition depth description

end Grammar
end SelectionGraph
