import SelectionGraph.Document.Basic
import SelectionGraph.FieldPath

/-!
# Location — where an entity is selected

- `DefinitionId`     : the identity of a definition under construction;
- `SourceDefinition` : an operation or fragment with its identity;
- `Location`         : a source definition and a path of fields from its root.

Source definitions are equal (`==`) when they have the same identity, whatever they say: two
definitions of the same text are different sources.  A location without a path is the same as one
with the empty path.
-/

namespace SelectionGraph

/-! ## Source definitions -/

/-- The identity of a source definition. -/
structure DefinitionId where
  number : Nat
  deriving DecidableEq, Hashable, Repr

instance : Hashed DefinitionId := ⟨fun id => [.number id.number]⟩

/-- An operation or a fragment. -/
inductive ExecutableDefinition
  | operation (definition : OperationDefinition)
  | fragment (definition : FragmentDefinition)

/-- The operation or fragment that entities are selected in. -/
structure SourceDefinition where
  id : DefinitionId
  definition : ExecutableDefinition

namespace SourceDefinition

instance : BEq SourceDefinition := ⟨fun s t => s.id == t.id⟩

instance : Hashed SourceDefinition := ⟨fun s => hashParts s.id⟩

instance : Hashable SourceDefinition := Hashed.hashable SourceDefinition hash

/-- The operation, if it is one. -/
def operation? (s : SourceDefinition) : Option OperationDefinition :=
  match s.definition with
  | .operation o => some o
  | .fragment _ => none

/-- The fragment, if it is one. -/
def fragment? (s : SourceDefinition) : Option FragmentDefinition :=
  match s.definition with
  | .operation _ => none
  | .fragment f => some f

/-- The name, which an operation may lack. -/
def name? (s : SourceDefinition) : Option Name :=
  match s.definition with
  | .operation o => o.name
  | .fragment f => some f.name

/-- The type that the selections of the definition are made on. -/
def rootType (s : SourceDefinition) : Name :=
  match s.definition with
  | .operation o => o.rootType
  | .fragment f => f.typeCondition

def render (s : SourceDefinition) : String :=
  match s.definition with
  | .operation o => o.kind.keyword ++ o.name.elim "" (" " ++ ·)
  | .fragment f => "fragment " ++ f.name

end SourceDefinition

/-! ## Locations -/

/-- Where an entity is selected.  A root location has no path, or an empty one. -/
structure Location where
  source : SourceDefinition
  fieldPath : Option FieldPath

namespace Location

def path (l : Location) : FieldPath :=
  l.fieldPath.getD .root

instance : BEq Location := ⟨fun l m => l.source == m.source && l.path == m.path⟩

instance : Hashed Location := ⟨fun l => hashParts l.source ++ hashParts l.path⟩

instance : Hashable Location := Hashed.hashable Location hash

def root (source : SourceDefinition) : Location :=
  ⟨source, none⟩

def isRoot (l : Location) : Bool :=
  l.path.isRoot

def append (l : Location) (component : PathComponent) : Location :=
  ⟨l.source, some (l.path.append component)⟩

def appendAll (l : Location) (components : List PathComponent) : Location :=
  ⟨l.source, some (l.path.appendAll components)⟩

/-- The source and the response keys leading to the location. -/
def render (l : Location) : String :=
  if l.isRoot then l.source.render else l.source.render ++ "." ++ l.path.render

end Location
end SelectionGraph
