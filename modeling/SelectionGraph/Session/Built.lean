import SelectionGraph.Direct.Outline
import SelectionGraph.Direct.Equality

/-!
# Built — operations and fragments once they are built

- `BuiltSelections` : what the selections of a definition come to: the field at its root, its
  entities, the fragments it uses;
- `NamedFragment`   : a built fragment;
- `Operation`       : a built operation.

Fragments that a definition uses, directly or through others, are listed once each, in the order of
the first reference.
-/

namespace SelectionGraph

mutual

/-- What the selections of a definition come to. -/
structure BuiltSelections where
  rootField : EntityField
  referenced : List NamedFragment
  entities : EntityStorage
  containsDeferred : Bool

/-- A built fragment.  The field at its root has its name and selects on its type condition. -/
structure NamedFragment where
  definition : FragmentDefinition
  built : BuiltSelections
  source : String

end

/-- A built operation.  The field at its root is the response's `data`. -/
structure Operation where
  definition : OperationDefinition
  built : BuiltSelections
  source : String

/-- The directive that marks definitions which only update a local cache and are never sent. -/
def localCacheMutation : Name :=
  "apollo_client_ios_localCacheMutation"

namespace NamedFragment

def name (f : NamedFragment) : Name :=
  f.definition.name

/-- The identity of this build: two builds of one definition differ. -/
def identity (f : NamedFragment) : FieldId :=
  f.built.rootField.id

def handle (f : NamedFragment) : FragmentHandle :=
  ⟨f.identity, f.name, f.definition.typeCondition⟩

/-- Fragments are equal when they have the same definition and are the same build. -/
instance : BEq NamedFragment := ⟨fun f g =>
  f.definition == g.definition && f.identity == g.identity⟩

/-- Equal definitions have equal names and type conditions, so equal fragments are hashed alike. -/
instance : Hashable NamedFragment := ⟨fun f =>
  mixHash (hash (f.name, f.definition.typeCondition)) (hash f.identity)⟩

/-- Whether the fragment only updates a local cache. -/
def isLocalCacheMutation (f : NamedFragment) : Bool :=
  Directive.has f.definition.directives localCacheMutation

def render (f : NamedFragment) : String :=
  let head := "fragment " ++ f.name ++ " on " ++ f.definition.typeCondition ++ " "
  (f.built.rootField.selectionSet.outline head).render

end NamedFragment

namespace Operation

def name? (o : Operation) : Option Name :=
  o.definition.name

/-- Whether the operation only updates a local cache. -/
def isLocalCacheMutation (o : Operation) : Bool :=
  Directive.has o.definition.directives localCacheMutation

def render (o : Operation) : String :=
  let head := o.definition.kind.keyword ++ o.name?.elim "" (" " ++ ·) ++ " "
  (o.built.rootField.selectionSet.outline head).render

end Operation

/-- The fragment of a name among those that a definition uses. -/
def BuiltSelections.fragment? (b : BuiltSelections) (name : Name) : Option NamedFragment :=
  b.referenced.find? fun f => f.name == name

end SelectionGraph
